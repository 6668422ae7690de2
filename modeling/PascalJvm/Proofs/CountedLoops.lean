import Mathlib.Tactic
import PascalJvm.Proofs.NestedCalls
import PascalJvm.Proofs.Rounds

/-!
# Loops with a counter

A loop with a counter tests its counter, runs its body, steps the counter and goes back to the
test. The step is taken before the counter is compared again, so the loop ends only if the counter
can be past the limit. A variable keeps the numbers up to an edge (`Run.edge`): a slot, an integer
and a value of an enumeration all numbers of 32 bits, a character in a field or a cell 16 bits, and
a truth value there one bit. If the limit is before the edge the body is run once for each number
up to the limit, and if it is at the edge the counter wraps around and the loop never ends.
-/
namespace PascalJvm

open Jvm Typed

namespace Run

/-- The bits that a variable keeps of a number, if it does not keep all of them. -/
def mask? (v : Symbol) : Option Int32 :=
  match v.storage, v.ty with
  | .slot _, _ => none
  | _, .basic .char => some 0xFFFF
  | _, .basic .boolean => some 1
  | _, _ => none

/-- What a variable keeps of a number. -/
def keeps (v : Symbol) (i : Int32) : Int32 :=
  match mask? v with
  | some m => i &&& m
  | none => i

/-- The last number that a variable can keep, in the direction of a loop. -/
def edge (v : Symbol) (down : Bool) : Int32 :=
  match mask? v with
  | some m => if down then 0 else m
  | none => if down then Int32.minValue else Int32.maxValue

/-- One more, or one less. -/
def delta (down : Bool) : Int := if down then -1 else 1

def stepped (down : Bool) (i : Int32) : Int32 := if down then i - 1 else i + 1

/-- The numbers that a counter runs through, `n` of them from `a` on. -/
def values (down : Bool) (a : Int) : Nat → List Int
  | 0 => []
  | n + 1 => a :: values down (a + delta down) n

/-- How many numbers there are from `a` up to `b`, or down to it. -/
def count (down : Bool) (a b : Int32) : Nat :=
  ((if down then a.toInt - b.toInt else b.toInt - a.toInt) + 1).toNat

section

variable {v : Symbol} {i b : Int32} {down : Bool}

lemma toInt_and_mask (i : Int32) {k : Nat} (hk : k < 31) :
    (i &&& Int32.ofNat (2 ^ k - 1)).toInt = i.toInt % (2 ^ k : Nat) := by
  have hpow : 2 ^ k < 2 ^ 31 := Nat.pow_lt_pow_right (by decide) hk
  have hone : 1 ≤ 2 ^ k := Nat.one_le_two_pow
  rw [← Int32.toInt_toBitVec, Int32.toBitVec_and, ← Int32.toInt_toBitVec]
  generalize i.toBitVec = x
  have hand : (x &&& (Int32.ofNat (2 ^ k - 1)).toBitVec).toNat = x.toNat % 2 ^ k := by
    rw [BitVec.toNat_and, Int32.toBitVec_ofNat', BitVec.toNat_ofNat,
      Nat.mod_eq_of_lt (by omega), Nat.and_two_pow_sub_one_eq_mod]
  have hlt : x.toNat % 2 ^ k < 2 ^ k := Nat.mod_lt _ (by omega)
  have hdvd : ((2 ^ k : Nat) : Int) ∣ (2 ^ 32 : Nat) :=
    Int.natCast_dvd_natCast.mpr (pow_dvd_pow 2 (by omega))
  rw [BitVec.toInt_eq_toNat_of_lt (by omega), hand, BitVec.toInt_eq_toNat_bmod,
    ← Int.emod_emod_of_dvd _ hdvd, Int.bmod_emod, Int.emod_emod_of_dvd _ hdvd, Int.natCast_mod]

lemma mask?_cases (v : Symbol) :
    mask? v = none ∨ ∃ k < 31, mask? v = some (Int32.ofNat (2 ^ k - 1)) := by
  unfold mask?
  split
  · exact .inl rfl
  · exact .inr ⟨16, by decide, rfl⟩
  · exact .inr ⟨1, by decide, rfl⟩
  · exact .inl rfl

lemma toInt_mask {k : Nat} (hk : k < 31) : (Int32.ofNat (2 ^ k - 1)).toInt = (2 ^ k : Nat) - 1 := by
  have hpow : 2 ^ k < 2 ^ 31 := Nat.pow_lt_pow_right (by decide) hk
  have hone : 1 ≤ 2 ^ k := Nat.one_le_two_pow
  rw [Int32.toInt_ofNat_of_lt (by omega)]
  omega

/-- A variable keeps numbers between its edges. -/
lemma keeps_between (v : Symbol) (i : Int32) :
    (edge v true).toInt ≤ (keeps v i).toInt ∧ (keeps v i).toInt ≤ (edge v false).toInt := by
  unfold keeps edge
  rcases mask?_cases v with h | ⟨k, hk, h⟩
  · rw [h]
    exact ⟨i.minValue_le_toInt, i.toInt_le⟩
  · rw [h]
    have hone : 1 ≤ 2 ^ k := Nat.one_le_two_pow
    have hlt := Int.emod_lt_of_pos i.toInt (show (0 : Int) < (2 ^ k : Nat) by omega)
    have hnonneg := Int.emod_nonneg i.toInt (show ((2 ^ k : Nat) : Int) ≠ 0 by omega)
    simp only [toInt_and_mask i hk, toInt_mask hk, if_true, Bool.false_eq_true, if_false,
      Int32.toInt_zero]
    omega

/-- A variable keeps all numbers between its edges. -/
lemma keeps_of_between (hlow : (edge v true).toInt ≤ i.toInt)
    (hhigh : i.toInt ≤ (edge v false).toInt) : keeps v i = i := by
  unfold keeps
  unfold edge at hlow hhigh
  rcases mask?_cases v with h | ⟨k, hk, h⟩
  · rw [h]
  · rw [h] at hlow hhigh ⊢
    simp only [toInt_mask hk, if_true, Bool.false_eq_true, if_false, Int32.toInt_zero]
      at hlow hhigh
    rw [← Int32.toInt_inj, toInt_and_mask i hk, Int.emod_eq_of_lt hlow (by omega)]

lemma keeps_keeps (v : Symbol) (i : Int32) : keeps v (keeps v i) = keeps v i :=
  keeps_of_between (keeps_between v i).1 (keeps_between v i).2

/-- Before the edge the counter goes on by one. -/
lemma toInt_keeps_stepped (h : keeps v i = i) (hne : i ≠ edge v down) :
    (keeps v (stepped down i)).toInt = i.toInt + delta down := by
  obtain ⟨hlow, hhigh⟩ := h ▸ keeps_between v i
  have hne : i.toInt ≠ (edge v down).toInt := fun h => hne (Int32.toInt_inj.mp h)
  have hmin := (edge v true).le_toInt
  have hmax := (edge v false).toInt_lt
  have hstepped : (stepped down i).toInt = i.toInt + delta down := by
    cases down with
    | true =>
      have hsub : (i - 1).toInt = _ := Int32.toInt_sub i 1
      rw [Int.bmod_eq_of_le (by simp; omega) (by simp; omega)] at hsub
      exact hsub
    | false =>
      have hadd : (i + 1).toInt = _ := Int32.toInt_add i 1
      rw [Int.bmod_eq_of_le (by simp; omega) (by simp; omega)] at hadd
      exact hadd
  rw [keeps_of_between, hstepped]
  · rw [hstepped]
    cases down <;> simp only [delta] <;> grind
  · rw [hstepped]
    cases down <;> simp only [delta] <;> grind

lemma passed_iff : passed down b i = true ↔ count down i b = 0 := by
  unfold passed count
  cases down <;> simp [Int32.lt_iff_toInt_lt]

lemma count_succ {j : Int32} (h : passed down b i = false) (hj : j.toInt = i.toInt + delta down) :
    count down i b = count down j b + 1 := by
  have hpos : count down i b ≠ 0 := by
    rw [Ne, ← passed_iff, h]
    simp
  unfold count delta at *
  cases down <;> simp only [if_true, Bool.false_eq_true, if_false] at * <;> omega

/-- No number that the counter keeps is past a limit that the edge is not past. -/
lemma passed_of_edge (h : keeps v i = i) (hedge : passed down b (edge v down) = false) :
    passed down b i = false := by
  obtain ⟨hlow, hhigh⟩ := h ▸ keeps_between v i
  unfold passed at *
  cases down <;> simp [Int32.le_iff_toInt_le] at * <;> omega

lemma ne_edge (h : passed down b i = false) (hedge : passed down b (edge v down) = true) :
    i ≠ edge v down := by
  rintro rfl
  rw [h] at hedge
  cases hedge

end

section

variable {host : Host} {Γ : Variables} {σ τ : Store} {v : Symbol} {i : Int32}

lemma narrow_int (ht : v.ty.isOrdinal = true) (hslot : ∀ n, v.storage ≠ .slot n) (i : Int32) :
    narrow (.ofTy v.ty) (.int i) = .int (keeps v i) := by
  obtain ⟨name, storage, ty⟩ := v
  cases storage with
  | slot n => exact absurd rfl (hslot n)
  | static _ | cell _ =>
    cases ty with
    | basic t => cases t <;> rfl
    | enum name => rfl
    | record name fields => cases ht
    | array low len elem => cases ht

/-- What is stored in a location is read from it, without the bits that it does not keep. -/
lemma read_of_write {k : Kind} {x : Value} {loc : Location} (h : σ.write k x loc = .ok τ) :
    τ.read loc = .ok (match loc with | .slot _ => x | _ => narrow k x) := by
  cases loc with
  | static name | slot n =>
    cases h
    simp [Store.read, Store.orStuck]
  | field a name =>
    simp only [Store.write] at h
    split at h
    · cases h
      simp [Store.read, Store.orStuck]
    · cases h
  | element a j =>
    simp only [Store.write] at h
    split at h
    · split_ifs at h with hj
      cases h
      have hlt : j.toNat < _ := (Int.toNat_lt hj.1).mpr hj.2
      simp [Store.read, Store.orStuck, Store.inRange, hj.1, hj.2, hlt]
    · cases h

/-- Where something can be read, something can be stored. -/
lemma write_of_read (k : Kind) (x : Value) {u : Value} {loc : Location} (h : σ.read loc = .ok u) :
    ∃ τ, σ.write k x loc = .ok τ := by
  cases loc with
  | static name | slot n => exact ⟨_, rfl⟩
  | field a name =>
    simp only [Store.read] at h
    simp only [Store.write]
    split at h
    · exact ⟨_, rfl⟩
    · cases h
  | element a j =>
    simp only [Store.read] at h
    simp only [Store.write]
    split at h
    · split_ifs at h with hj
      exact ⟨_, if_pos hj⟩
    · cases h

lemma counterValue_eq_ok : counterValue host (.ofSymbol v) σ = .ok i ↔
    ∃ loc, locate host σ (.root v) = .ok loc ∧ σ.read loc = .ok (.int i) := by
  simp only [counterValue, Designator.ofSymbol, bind_eq_ok]
  constructor
  · rintro ⟨loc, hloc, x, hread, hx⟩
    obtain rfl : x = .int i := by
      cases x <;> cases hx
      rfl
    exact ⟨loc, hloc, hread⟩
  · rintro ⟨loc, hloc, hread⟩
    exact ⟨loc, hloc, _, hread, rfl⟩

/-- A variable stays where it is when it is stored into. -/
lemma locate_of_write {k : Kind} {x : Value} {loc : Location}
    (hloc : locate host σ (.root v) = .ok loc) (h : σ.write k x loc = .ok τ) :
    locate host τ (.root v) = .ok loc := by
  obtain ⟨name, storage, ty⟩ := v
  cases storage with
  | static name | slot n => exact hloc
  | cell n =>
    simp only [locate, bind_eq_ok, pure_eq_ok] at hloc ⊢
    obtain ⟨x, hread, a, hx, rfl⟩ := hloc
    refine ⟨x, ?_, a, hx, rfl⟩
    rw [Store.read] at hread ⊢
    rw [write_slots h (by simp)]
    exact hread

/-- A variable holds what it keeps of the number that is stored into it. -/
lemma counterValue_of_write (ht : v.ty.isOrdinal = true) {loc : Location}
    (hloc : locate host σ (.root v) = .ok loc)
    (h : σ.write (.ofTy v.ty) (.int i) loc = .ok τ) :
    counterValue host (.ofSymbol v) τ = .ok (keeps v i) := by
  refine counterValue_eq_ok.mpr ⟨loc, locate_of_write hloc h, ?_⟩
  rw [read_of_write h]
  obtain ⟨name, storage, ty⟩ := v
  cases storage with
  | static name =>
    cases hloc
    rw [← narrow_int ht (by simp)]
  | slot n =>
    cases hloc
    rfl
  | cell n =>
    simp only [locate, bind_eq_ok, pure_eq_ok] at hloc
    obtain ⟨_, -, a, -, rfl⟩ := hloc
    rw [← narrow_int ht (by simp)]

/-- Only a variable of the program that has that name is there. -/
lemma ne_static_of_locate {loc : Location} {name : String} (hne : v.storage ≠ .static name)
    (hloc : locate host σ (.root v) = .ok loc) : loc ≠ .static name := by
  rintro rfl
  obtain ⟨_, storage, _⟩ := v
  cases storage with
  | static other =>
    cases hloc
    exact hne rfl
  | slot n => cases hloc
  | cell n =>
    simp only [locate, bind_eq_ok, pure_eq_ok] at hloc
    obtain ⟨_, -, a, -, hloc⟩ := hloc
    cases hloc

/-- What is stored in a variable of the program is read nowhere else. -/
lemma read_of_write_static {k : Kind} {x : Value} {name : String} {loc : Location}
    (hne : loc ≠ .static name) (h : σ.write k x (.static name) = .ok τ) :
    τ.read loc = σ.read loc := by
  cases h
  cases loc with
  | static other =>
    rw [ne_eq, Location.static.injEq] at hne
    simp only [Store.read, Function.update_of_ne hne]
  | slot n | field a f | element a i => rfl

/-- What is stored in another variable of the program does not change a variable. -/
lemma counterValue_of_write_static {k : Kind} {x : Value} {name : String}
    (hne : v.storage ≠ .static name) (h : σ.write k x (.static name) = .ok τ) :
    counterValue host (.ofSymbol v) τ = counterValue host (.ofSymbol v) σ := by
  have hsame : locate host τ (.root v) = locate host σ (.root v) := by
    cases h
    obtain ⟨_, storage, _⟩ := v
    cases storage <;> rfl
  simp only [counterValue, Designator.ofSymbol, hsame]
  cases hloc : locate host σ (.root v) with
  | error e => rfl
  | ok loc =>
    exact congrArg (· >>= asInt) (read_of_write_static (ne_static_of_locate hne hloc) h)

/-- The counter is stepped, and keeps what it can. -/
lemma advance_keeps (ht : v.ty.isOrdinal = true) (down : Bool)
    (hi : counterValue host (.ofSymbol v) σ = .ok i) :
    ∃ τ, advance host (.ofSymbol v) down σ = .ok τ ∧
      counterValue host (.ofSymbol v) τ = .ok (keeps v (stepped down i)) := by
  obtain ⟨loc, hloc, hread⟩ := counterValue_eq_ok.mp hi
  obtain ⟨τ, hτ⟩ := write_of_read (.ofTy v.ty) (.int (stepped down i)) hread
  refine ⟨τ, ?_, counterValue_of_write ht hloc hτ⟩
  simp only [advance, bind_eq_ok]
  exact ⟨loc, hloc, i, hi, hτ⟩

/-- The counter is among the variables that stores agree on. -/
lemma Agree.counterValue {μ : Store} (h : Agree Γ.slots.length σ μ) (hv : v.Declared Γ) :
    counterValue host (.ofSymbol v) μ = counterValue host (.ofSymbol v) σ := by
  have hfetch (σ : Store) : Run.counterValue host (.ofSymbol v) σ =
      fetch host σ (.root v) >>= asInt := by
    simp only [Run.counterValue, fetch, Designator.ofSymbol, bind_assoc]
  rw [hfetch, hfetch, h.fetch_root hv]

end

/-- The value of an expression is stored into a variable. -/
def World.assign (w : World) (v : Symbol) (e : Expr) (σ : Store) : Eval Store := do
  let (loc, σ) ← w.position (.root v) σ
  let (x, σ) ← w.value e σ
  σ.write (.ofTy v.ty) x loc

section

variable {w : World} {Γ : Variables} {σ τ μ : Store} {v : Symbol}

lemma assign_runs (hw : w.Sound Γ.statics) (hv : v.Declared Γ) {e : Expr} (he : e.WellTyped Γ)
    (hsame : v.ty.same e.ty = true) {s t : Emit.Supply} {code : List Instr}
    (hcode : Emit.assign (.ofSymbol v) e s = .ok (code, t)) (hs : Γ.slots.length ≤ s.slot)
    (hσ : σ.Sound Γ.statics Γ.slots ∅) (hagree : Agree Γ.slots.length σ μ) (st : List Value) :
    w.Runs ∅ code ⟨st, μ⟩ (w.assign v e σ) fun τ s' =>
      s'.stack = st ∧ Agree Γ.slots.length τ s'.store := by
  simp only [Emit.assign, Designator.ofSymbol, Emit.Gen.bind_ok, Emit.Gen.pure_ok] at hcode
  obtain ⟨codeA, u, hA, codeE, u', hE, rfl, rfl⟩ := hcode
  have hslot := (Emit.address_spans (.root v) _ _ _ hA).2
  have haddress := World.root_computes (w := w) hv hA hs hσ hagree st
  rw [Emit.widen_of_same hsame, List.append_nil, List.append_assoc]
  refine (haddress.mono (Set.empty_subset _)).append fun r s₁ hloc _ hout => ?_
  obtain ⟨loc, σ₁⟩ := r
  obtain ⟨stack, μ₁⟩ := s₁
  obtain ⟨hstack, hagree⟩ := hout
  obtain rfl : stack = loc.operands ++ st := hstack
  obtain ⟨hσ₁, -, hclear⟩ := (position_safe hw (.root v) hv hσ).of_ok hloc
  have hvalue := World.expr_computes hw e he hE (hslot ▸ hs) hσ₁.sound hagree (loc.operands ++ st)
  refine (hvalue.mono (Set.empty_subset _)).append fun r s₂ hx _ hout => ?_
  obtain ⟨x, σ₂⟩ := r
  obtain ⟨stack, μ₂⟩ := s₂
  obtain ⟨hstack, hagree⟩ := hout
  obtain rfl : stack = [x] ++ (loc.operands ++ st) := hstack
  obtain ⟨hσ₂, -, -⟩ := (value_safe hw e he hσ₁.sound).of_ok hx
  have hlocate : locate w.toHost σ₂ (.root v) = .ok loc := by
    simp only [World.position, bind_eq_ok, pure_eq_ok, Prod.mk.injEq] at hloc
    obtain ⟨loc, hloc, rfl, rfl⟩ := hloc
    exact hσ₂.alike.locate_root hloc
  have hholds := (root_safe hσ₂.sound.wellTyped v hv).of_ok hlocate
  refine .straight (f := fun τ => ⟨st, τ.over Γ.slots.length μ₂⟩) (Emit.straight_store _ _)
    (fun ins _ => by cases ins <;> simp [Instr.Spares]) ?_ fun υ _ => ⟨rfl, agree_over _ _ _⟩
  have hstore : workAll w.toHost (Emit.store v.ty (.root v)) ⟨x :: (loc.operands ++ st), μ₂⟩ = _ :=
    work_store (of_locate hlocate) (hagree.holds hclear hholds) x st
  have hwrite : μ₂.write (.ofTy v.ty) x loc = _ := hagree.write hclear _ x
  rw [List.singleton_append, hstore, Place.ty, hwrite]
  simp only [bind_assoc, pure_bind]

/-- A variable can be read and stored into. -/
lemma locate_root_ok (host : Host) (hσ : σ.WellTyped Γ.statics Γ.slots) (hv : v.Declared Γ) :
    ∃ loc x, locate host σ (.root v) = .ok loc ∧ σ.read loc = .ok x := by
  obtain ⟨name, storage, ty⟩ := v
  cases storage with
  | static name =>
    obtain ⟨x, hx, -⟩ := hσ.statics hv
    exact ⟨_, x, rfl, by rw [Store.read, hx, Store.orStuck]⟩
  | slot n =>
    obtain ⟨x, hx, -⟩ := hσ.slots hv
    exact ⟨_, x, rfl, by rw [Store.read, hx, Store.orStuck]⟩
  | cell n =>
    obtain ⟨x, hx, hty⟩ := hσ.slots hv
    obtain ⟨a, rfl⟩ := HasTy.eq_ref hty rfl
    obtain ⟨u, hu, -⟩ := hasTy_cell.mp hty
    refine ⟨.element a 0, u, ?_, read_cell hu⟩
    simp only [locate, read_slot hx]
    rfl

/-- A loop starts with the number that its counter keeps. -/
lemma assign_ok (hw : w.Sound Γ.statics) (hv : v.Declared Γ) (ht : v.ty.isOrdinal = true)
    {e : Expr} (he : e.WellTyped Γ) (hσ : σ.Sound Γ.statics Γ.slots ∅) {a : Int32}
    (hvalue : w.value e σ = .ok (.int a, τ)) : ∃ υ, w.assign v e σ = .ok υ ∧
      counterValue w.toHost (.ofSymbol v) υ = .ok (keeps v a) := by
  obtain ⟨hτ, -, -⟩ := (value_safe hw e he hσ).of_ok hvalue
  obtain ⟨loc, -, hloc, -⟩ := locate_root_ok w.toHost hσ.wellTyped hv
  obtain ⟨loc', x, hloc', hread⟩ := locate_root_ok w.toHost hτ.sound.wellTyped hv
  obtain rfl := Except.ok.inj ((hτ.alike.locate_root hloc).symm.trans hloc')
  obtain ⟨υ, hυ⟩ := write_of_read (.ofTy v.ty) (.int a) hread
  refine ⟨υ, ?_, counterValue_of_write ht hloc' hυ⟩
  simp only [World.assign, World.position, hloc, bind_assoc, pure_bind, hvalue]
  exact hυ

end

/-- How the code of a loop with a counter runs: the first value is stored, the counter is tested
against the limit, and stepped after the body. -/
structure ForCode (w : World) (Γ : Variables) (next : Config → Eval Config) (l : LoopSpan)
    (top : Nat) (v : Symbol) (first last : Expr) (down : Bool) : Prop where
  enter_le : l.first ≤ l.enter
  leave_le : l.leave ≤ l.last
  start {σ τ : Store} (st : List Value) (hσ : σ.Sound Γ.statics Γ.slots ∅)
    (h : w.assign v first σ = .ok τ) :
    ∃ μ, Agree Γ.slots.length τ μ ∧ Rounds next l ⟨l.first, st, σ⟩ [] ⟨top, st, μ⟩
  test {σ τ μ : Store} (st : List Value) {b i : Int32} (hσ : σ.Sound Γ.statics Γ.slots ∅)
    (hagree : Agree Γ.slots.length σ μ) (hlimit : w.value last σ = .ok (.int b, τ))
    (hi : counterValue w.toHost (.ofSymbol v) τ = .ok i) :
    ∃ ν, Agree Γ.slots.length τ ν ∧
      if passed down b i then Rounds next l ⟨top, st, μ⟩ [] ⟨l.last, st, ν⟩
      else Rounds next l ⟨top, st, μ⟩ [⟨l.enter, st, ν⟩] ⟨l.enter, st, ν⟩
  step {σ τ : Store} {st : List Value} (hσ : σ.WellTyped Γ.statics Γ.slots)
    (h : advance w.toHost (.ofSymbol v) down σ = .ok τ) :
    Rounds next l ⟨l.leave, st, σ⟩ [] ⟨top, st, τ⟩

section

variable {w : World} {Γ : Variables} {next : Config → Eval Config} {l : LoopSpan} {v : Symbol}
  {first last : Expr} {down : Bool} {codeF codeL codeC codeB codeS code : List Instr}
  {labelTop labelExit : Label} {s t : Emit.Supply} {top q : Nat} {st : List Value}

/-- The limit and the counter are compared; from there control goes to the end of the loop or into
the body. -/
lemma test_rounds (hw : w.Sound Γ.statics) (hnext : w.ExtendedBy code next)
    (hn : (boundLabels code).Nodup) (hv : v.Declared Γ) (hord : v.ty.isOrdinal = true)
    (hlast : last.WellTyped Γ) (hL : Emit.expr last s = .ok (codeL, t))
    (hs : Γ.slots.length ≤ s.slot) {u u' : Emit.Supply}
    (hC : Emit.load (.ofSymbol v) u = .ok (codeC, u')) (htop : code[top]? = some (.label labelTop))
    (hlastAt : CodeAt code (top + 1) codeL)
    (hcounterAt : CodeAt code (top + 1 + codeL.length) codeC)
    (hjump : code[top + 1 + codeL.length + codeC.length]? =
      some (.ifCompare (if down then .gt else .lt) labelExit))
    (hexit : code[q]? = some (.label labelExit)) (hfirst : l.first ≤ top)
    (henter : l.enter = top + 1 + codeL.length + codeC.length + 1) (hq : l.enter < q)
    (hend : l.last = q + 1) {σ τ μ : Store} {b i : Int32} (hσ : σ.Sound Γ.statics Γ.slots ∅)
    (hagree : Agree Γ.slots.length σ μ) (hlimit : w.value last σ = .ok (.int b, τ))
    (hi : counterValue w.toHost (.ofSymbol v) τ = .ok i) :
    ∃ ν, Agree Γ.slots.length τ ν ∧
      if passed down b i then Rounds next l ⟨top, st, μ⟩ [] ⟨l.last, st, ν⟩
      else Rounds next l ⟨top, st, μ⟩ [⟨l.enter, st, ν⟩] ⟨l.enter, st, ν⟩ := by
  have hruns := World.expr_computes hw last hlast hL hs hσ hagree st
  obtain ⟨⟨stack, ν⟩, hlead, hstack, hagree'⟩ := hruns.leads (nodup_of_codeAt hn hlastAt) hlimit
  obtain rfl : stack = .int b :: st := hstack
  have hτ := ((value_safe hw last hlast hσ).of_ok hlimit).1.sound.wellTyped
  have hcounter : (Designator.ofSymbol v).WellTyped Γ := ⟨hv, rfl⟩
  have hload := (runs_counter (hagree'.wellTyped hτ) hcounter hord rfl hC (.int b :: st)).reaches
    (nodup_of_codeAt hn hcounterAt) ((hagree'.counterValue hv).trans hi)
  have hbefore : Rounds next l ⟨top, st, μ⟩ []
      ⟨top + 1 + codeL.length + codeC.length, .int i :: .int b :: st, ν⟩ := by
    refine .silent (by dsimp only; omega) (hnext.step (step_label htop))
      (l.entry_of_ne (by dsimp only; omega)) ?_
    refine (Rounds.before_body hn hlastAt hnext ?_ ?_ ?_ hlead).trans
      (.before_body hn hcounterAt hnext ?_ ?_ ?_ (.of_reaches hload)) <;> omega
  have hcompare : next ⟨top + 1 + codeL.length + codeC.length, .int i :: .int b :: st, ν⟩ = _ :=
    hnext.step (step_ifCompare hn hjump hexit)
  have hpassed : (if down then Relation.gt else Relation.lt).holds b i = passed down b i := by
    cases down <;> rfl
  rw [hpassed] at hcompare
  refine ⟨ν, hagree', ?_⟩
  split_ifs with h
  · rw [h, if_pos rfl] at hcompare
    refine hbefore.trans (.silent (by dsimp only; omega) hcompare
      (l.entry_of_ne (by dsimp only; omega)) ?_)
    rw [hend]
    exact .silent (by dsimp only; omega) (hnext.step (step_label hexit))
      (l.entry_of_ne (by dsimp only; omega)) (.refl _)
  · rw [if_neg h, ← henter] at hcompare
    have hentry : l.entry ⟨top + 1 + codeL.length + codeC.length, .int i :: .int b :: st, ν⟩
        ⟨l.enter, st, ν⟩ = [⟨l.enter, st, ν⟩] :=
      if_pos ⟨fun hin => by have := hin.1; dsimp only at this; omega, rfl⟩
    rw [← hentry, ← List.append_nil (l.entry _ _)]
    exact hbefore.trans (.step (by dsimp only; omega) hcompare (.refl _))

/-- The counter is stepped after the body, and control goes back to the test. -/
lemma step_rounds (hnext : w.ExtendedBy code next) (hn : (boundLabels code).Nodup)
    (hv : v.Declared Γ) (hord : v.ty.isOrdinal = true)
    (hS : Emit.stepCounter (.ofSymbol v) down s = .ok (codeS, t))
    (hstepAt : CodeAt code l.leave codeS)
    (hgoto : code[l.leave + codeS.length]? = some (.goto labelTop))
    (htop : code[top]? = some (.label labelTop)) (hfirst : l.first ≤ l.enter)
    (henter : top < l.enter) (hleave : l.enter ≤ l.leave)
    (hend : l.leave + codeS.length + 1 ≤ l.last) {σ τ : Store}
    (hσ : σ.WellTyped Γ.statics Γ.slots)
    (h : advance w.toHost (.ofSymbol v) down σ = .ok τ) :
    Rounds next l ⟨l.leave, st, σ⟩ [] ⟨top, st, τ⟩ := by
  have hcounter : (Designator.ofSymbol v).WellTyped Γ := ⟨hv, rfl⟩
  have hruns := (runs_stepCounter hσ hcounter hord rfl down hS st).reaches
    (nodup_of_codeAt hn hstepAt) h
  have hstraight : Straight codeS := by
    simp only [Emit.stepCounter, Emit.address, Emit.load, Emit.loadVia, Designator.ofSymbol,
      pure_bind, Emit.Gen.pure_ok] at hS
    rw [← hS.1]
    have hone : Straight [.pushInt 1, .arith (if down then .sub else .add) .int] := by
      simp [Straight, Instr.straight]
    exact (((Emit.straight_symbolAddress v).append (Emit.straight_loadSymbol v v.ty)).append
      hone).append (Emit.straight_store v.ty (.root v))
  refine (Rounds.after_body hn hstepAt hnext hfirst hleave (by omega) hstraight hruns).trans
    (.silent (by dsimp only; omega) (hnext.step (step_goto hn hgoto htop))
      (l.entry_of_ne (by dsimp only; omega)) (.refl _))

/-- The positions of a loop with a counter at `p`. -/
def spanAt (p : Nat) (codeF codeL codeC codeB codeS : List Instr) : LoopSpan where
  first := p
  enter := p + codeF.length + 1 + codeL.length + codeC.length + 1
  leave := p + codeF.length + 1 + codeL.length + codeC.length + 1 + codeB.length
  last := p + codeF.length + 1 + codeL.length + codeC.length + 1 + codeB.length +
    codeS.length + 1 + 1

lemma forCode_of_codeAt {p : Nat} (hw : w.Sound Γ.statics) (hnext : w.ExtendedBy code next)
    (hn : (boundLabels code).Nodup) (hv : v.Declared Γ) (hord : v.ty.isOrdinal = true)
    (hfirst : first.WellTyped Γ) (hsame : v.ty.same first.ty = true) (hlast : last.WellTyped Γ)
    {u u' x x' y y' : Emit.Supply} (hF : Emit.assign (.ofSymbol v) first s = .ok (codeF, t))
    (hL : Emit.expr last u = .ok (codeL, u')) (hC : Emit.load (.ofSymbol v) x = .ok (codeC, x'))
    (hS : Emit.stepCounter (.ofSymbol v) down y = .ok (codeS, y'))
    (hs : Γ.slots.length ≤ s.slot) (hu : Γ.slots.length ≤ u.slot)
    (hcode : CodeAt code p (codeF ++ [Instr.label labelTop] ++ codeL ++ codeC ++
      [Instr.ifCompare (if down then .gt else .lt) labelExit] ++ codeB ++
        (codeS ++ [Instr.goto labelTop, .label labelExit]))) :
    ForCode w Γ next (spanAt p codeF codeL codeC codeB codeS) (p + codeF.length) v first last
      down := by
  simp only [List.append_assoc, List.cons_append, List.nil_append, codeAt_append, codeAt_cons,
    codeAt_nil, and_true] at hcode
  obtain ⟨hfirstAt, htop, hlastAt, hcounterAt, hjump, -, hstepAt, hgoto, hexit⟩ := hcode
  generalize hl : spanAt p codeF codeL codeC codeB codeS = l
  have hlfirst : l.first = p := by rw [← hl, spanAt]
  have henter : l.enter = p + codeF.length + 1 + codeL.length + codeC.length + 1 := by
    rw [← hl, spanAt]
  have hleave : l.leave = l.enter + codeB.length := by rw [← hl, spanAt]
  have hend : l.last = l.leave + codeS.length + 1 + 1 := by rw [← hl, spanAt]
  rw [← henter, ← hleave] at hstepAt hgoto hexit
  refine ⟨by omega, by omega, fun {σ τ} st hσ h => ?_, fun st _ _ hσ hagree hlimit hi => ?_,
    fun hσ h => ?_⟩
  · have hruns := assign_runs hw hv hfirst hsame hF hs hσ (.refl _ σ) st
    obtain ⟨⟨stack, μ⟩, hlead, hstack, hagree⟩ := hruns.leads (nodup_of_codeAt hn hfirstAt) h
    obtain rfl : stack = st := hstack
    rw [hlfirst]
    exact ⟨μ, hagree, .before_body hn hfirstAt hnext hlfirst.le (by omega) (by omega) hlead⟩
  · exact test_rounds hw hnext hn hv hord hlast hL hu hC htop hlastAt hcounterAt hjump hexit
      (by omega) henter (by omega) hend hσ hagree hlimit hi
  · exact step_rounds hnext hn hv hord hS hstepAt hgoto htop (by omega) (by omega) (by omega)
      (by omega) hσ h

end

/-- A loop whose limit stays `b`, and whose body ends and leaves the counter alone. `Inv` holds of
the store whenever the counter is about to be tested. -/
structure Steady (w : World) (next : Config → Eval Config) (l : LoopSpan)
    (statics : List (String × Ty)) (slots : List ParamDesc) (v : Symbol) (last : Expr)
    (down : Bool) (b : Int32) (st : List Value) (Inv : Store → Prop) : Prop where
  sound {σ : Store} (h : Inv σ) : σ.Sound statics slots ∅
  limit {σ : Store} (h : Inv σ) : ∃ τ, w.value last σ = .ok (.int b, τ) ∧
    counterValue w.toHost (.ofSymbol v) τ = counterValue w.toHost (.ofSymbol v) σ
  body {σ τ μ : Store} {i : Int32} (h : Inv σ) (hlimit : w.value last σ = .ok (.int b, τ))
    (hi : counterValue w.toHost (.ofSymbol v) τ = .ok i) (hgo : passed down b i = false)
    (hagree : Agree slots.length τ μ) :
    ∃ ν, BodyRun next l ⟨l.enter, st, μ⟩ ⟨l.leave, st, ν⟩ ∧ ν.WellTyped statics slots ∧
      counterValue w.toHost (.ofSymbol v) ν = .ok i ∧
      ∀ υ, advance w.toHost (.ofSymbol v) down ν = .ok υ → Inv υ

section

variable {w : World} {Γ : Variables} {next : Config → Eval Config} {l : LoopSpan} {top : Nat}
  {v : Symbol} {first last : Expr} {down : Bool} {b i : Int32} {st : List Value}
  {Inv : Store → Prop} {σ μ : Store}

/-- The loop ends once the counter is past the limit. -/
lemma ForCode.leave (h : ForCode w Γ next l top v first last down)
    (hsteady : Steady w next l Γ.statics Γ.slots v last down b st Inv) (hInv : Inv σ)
    (hagree : Agree Γ.slots.length σ μ) (hi : counterValue w.toHost (.ofSymbol v) σ = .ok i)
    (hpassed : passed down b i = true) :
    ∃ ν, Rounds next l ⟨top, st, μ⟩ [] ⟨l.last, st, ν⟩ := by
  obtain ⟨τ, hlimit, hsame⟩ := hsteady.limit hInv
  obtain ⟨ν, -, hrun⟩ := h.test st (hsteady.sound hInv) hagree hlimit (hsame.trans hi)
  rw [if_pos hpassed] at hrun
  exact ⟨ν, hrun⟩

/-- One round: the body is run with the counter as it is, and the counter is stepped. -/
lemma ForCode.round (h : ForCode w Γ next l top v first last down) (hord : v.ty.isOrdinal = true)
    (hv : v.Declared Γ) (hsteady : Steady w next l Γ.statics Γ.slots v last down b st Inv)
    (hInv : Inv σ) (hagree : Agree Γ.slots.length σ μ)
    (hi : counterValue w.toHost (.ofSymbol v) σ = .ok i) (hgo : passed down b i = false) :
    ∃ d υ, Rounds next l ⟨top, st, μ⟩ [d] ⟨top, st, υ⟩ ∧
      counterValue w.toHost (.ofSymbol v) d.state.store = .ok i ∧ Inv υ ∧
      counterValue w.toHost (.ofSymbol v) υ = .ok (keeps v (stepped down i)) := by
  obtain ⟨τ, hlimit, hsame⟩ := hsteady.limit hInv
  have hi := hsame.trans hi
  obtain ⟨ν, hagree, hrun⟩ := h.test st (hsteady.sound hInv) hagree hlimit hi
  rw [if_neg (by simp [hgo])] at hrun
  obtain ⟨ρ, hbody, hρ, hiρ, hnext⟩ := hsteady.body hInv hlimit hi hgo hagree
  obtain ⟨υ, hυ, hiυ⟩ := advance_keeps hord down hiρ
  refine ⟨⟨l.enter, st, ν⟩, υ, ?_, (hagree.counterValue hv).trans hi, hnext υ hυ, hiυ⟩
  exact hrun.trans ((Rounds.of_bodyRun h.enter_le h.leave_le hbody).trans (h.step hρ hυ))

/-- The configurations in which the body is entered have the numbers in the counter. -/
def Counted (w : World) (v : Symbol) (numbers : List Int) (ds : List Config) : Prop :=
  List.Forall₂ (fun z d => ∃ i : Int32,
    counterValue w.toHost (.ofSymbol v) d.state.store = .ok i ∧ i.toInt = z) numbers ds

/-- Before the edge, the body is run once for each number up to the limit. -/
lemma ForCode.counts (h : ForCode w Γ next l top v first last down) (hord : v.ty.isOrdinal = true)
    (hv : v.Declared Γ) (hsteady : Steady w next l Γ.statics Γ.slots v last down b st Inv)
    (hedge : passed down b (edge v down) = true) (hInv : Inv σ)
    (hagree : Agree Γ.slots.length σ μ) (hi : counterValue w.toHost (.ofSymbol v) σ = .ok i)
    (hkeeps : keeps v i = i) : ∃ ds ν, Rounds next l ⟨top, st, μ⟩ ds ⟨l.last, st, ν⟩ ∧
      Counted w v (values down i.toInt (count down i b)) ds := by
  induction hn : count down i b generalizing σ μ i with
  | zero =>
    obtain ⟨ν, hrun⟩ := h.leave hsteady hInv hagree hi (passed_iff.mpr hn)
    exact ⟨[], ν, hrun, .nil⟩
  | succ n ih =>
    have hgo : passed down b i = false := by
      rw [← Bool.not_eq_true, passed_iff, hn]
      simp
    have hstepped := toInt_keeps_stepped hkeeps (ne_edge hgo hedge)
    obtain ⟨d, υ, hround, hid, hInv', hiυ⟩ := h.round hord hv hsteady hInv hagree hi hgo
    have hcount : count down (keeps v (stepped down i)) b = n := by
      have := count_succ hgo hstepped
      omega
    obtain ⟨ds, ν, hrun, hds⟩ := ih hInv' (.refl _ υ) hiυ (keeps_keeps ..) hcount
    rw [hstepped] at hds
    exact ⟨d :: ds, ν, hround.trans hrun, .cons ⟨i, hid, rfl⟩ hds⟩

/-- At the edge, there is always one more round. -/
lemma ForCode.continues (h : ForCode w Γ next l top v first last down)
    (hord : v.ty.isOrdinal = true) (hv : v.Declared Γ)
    (hsteady : Steady w next l Γ.statics Γ.slots v last down b st Inv)
    (hedge : passed down b (edge v down) = false) (n : Nat) (hInv : Inv σ)
    (hagree : Agree Γ.slots.length σ μ) (hi : counterValue w.toHost (.ofSymbol v) σ = .ok i)
    (hkeeps : keeps v i = i) : ∃ ds d, ds.length = n ∧ Rounds next l ⟨top, st, μ⟩ ds d := by
  induction n generalizing σ μ i with
  | zero => exact ⟨[], _, rfl, .refl _⟩
  | succ n ih =>
    have hgo := passed_of_edge hkeeps hedge
    obtain ⟨d, υ, hround, -, hInv', hiυ⟩ := h.round hord hv hsteady hInv hagree hi hgo
    obtain ⟨ds, e, hlen, hrun⟩ := ih hInv' (.refl _ υ) hiυ (keeps_keeps ..)
    exact ⟨d :: ds, e, by simp [hlen], hround.trans hrun⟩

/-- At the edge, the loop is never left. -/
lemma ForCode.never_left (h : ForCode w Γ next l top v first last down)
    (hord : v.ty.isOrdinal = true) (hv : v.Declared Γ)
    (hsteady : Steady w next l Γ.statics Γ.slots v last down b st Inv)
    (hedge : passed down b (edge v down) = false) {τ : Store} (hσ : σ.Sound Γ.statics Γ.slots ∅)
    (hassign : w.assign v first σ = .ok τ) (hInv : Inv τ)
    (hi : counterValue w.toHost (.ofSymbol v) τ = .ok i) (hkeeps : keeps v i = i) :
    (∀ n, ∃ ds d, ds.length = n ∧ Rounds next l ⟨l.first, st, σ⟩ ds d) ∧
      ∀ ds d, Rounds next l ⟨l.first, st, σ⟩ ds d → d.pc ≠ l.last := by
  have hcontinues (n : Nat) : ∃ ds d, ds.length = n ∧ Rounds next l ⟨l.first, st, σ⟩ ds d := by
    obtain ⟨μ, hagree, hstart⟩ := h.start st hσ hassign
    obtain ⟨ds, d, hlen, hrun⟩ := h.continues hord hv hsteady hedge n hInv hagree hi hkeeps
    exact ⟨ds, d, hlen, hstart.trans hrun⟩
  refine ⟨hcontinues, fun ds d hrun hd => ?_⟩
  obtain ⟨es, e, hlen, hlonger⟩ := hcontinues (ds.length + 1)
  have := hrun.length_le hd hlonger
  omega

end

section

variable {Γ : Variables} {policy : Emit.CasePolicy} {counter : Designator} {first last : Expr}
  {down : Bool} {inner : Stmt} {s t : Emit.Supply} {ops : List Op}

/-- The code of a loop with a counter, and the code of its body in it. -/
lemma forDo_layout (hwt : (Stmt.forDo counter first last down inner).WellTyped Γ)
    (hs : Γ.slots.length ≤ s.slot)
    (hgen : Emit.stmt policy (.forDo counter first last down inner) s = .ok (ops, t)) :
    ∃ v enter ops' u u', counter = .ofSymbol v ∧ v.Declared Γ ∧ v.ty.isOrdinal = true ∧
      Emit.stmt policy inner u = .ok (ops', u') ∧ CodeAt (emitted ops) enter (emitted ops') ∧
      ∀ (w : World) (next : Config → Eval Config) (code : List Instr) (pc : Nat),
        w.Sound Γ.statics → (boundLabels code).Nodup → CodeAt code pc (emitted ops) →
        w.ExtendedBy code next → ∃ top, ForCode w Γ next
          (.standing pc enter (emitted ops) (emitted ops')) top v first last down := by
  obtain ⟨hcounter, hord, hfirst, hsame, hlast, -, -, v, rfl⟩ := hwt
  rw [Emit.stmt] at hgen
  obtain ⟨ops₀, hops, rfl⟩ := Emit.entering_ok.mp hgen
  simp only [Emit.Gen.bind_ok, Emit.Gen.pure_ok] at hops
  obtain ⟨top, s₁, htop, exit, s₂, hexit, codeF, s₃, hF, codeL, s₄, hL, codeC, s₅, hC, opsB, s₆, hB,
    codeS, s₇, hS, rfl, rfl⟩ := hops
  have hs₁ := (Emit.Gen.freshLabel_ok.mp htop).2.2.1
  have hs₂ := (Emit.Gen.freshLabel_ok.mp hexit).2.2.1
  have hs₃ := (Emit.assign_spans _ _ _ _ _ hF).2
  simp only [emitted_cons_enter, emitted_append, Emit.emitted_asm]
  refine ⟨v, _, opsB, s₅, s₆, rfl, hcounter.place, hord, hB, codeAt_of_append _ _,
    fun w next code pc hw hn hcode hnext => ⟨pc + codeF.length, ?_⟩⟩
  have hfor := forCode_of_codeAt hw hnext hn hcounter.place hord hfirst hsame hlast hF hL hC hS
    (by omega) (by omega) hcode
  convert hfor using 1
  simp only [LoopSpan.standing, spanAt, LoopSpan.mk.injEq, List.length_append, List.length_cons,
    List.length_nil]
  exact ⟨trivial, by omega, by omega, by omega⟩

end

end Run

open Run in
/-- Take any loop with a counter in a checked program. Its counter is a variable. Let the machine
know the instructions of the loop, and maybe more; let the limit stay `b`, and the body end and
leave the counter alone. If the counter can be past the limit, the code leaves the loop, and has run
the body once for each number from `a` to `b`, in order. If the limit is at the edge of what the
counter keeps, the code runs the body any number of times, and never leaves the loop. -/
theorem for_ends_iff_limit_before_edge {source : List Char} {p : Source.Program}
    {env : Environment} {q : Program} (hparse : Source.Program.parse source = .ok p)
    (henv : Environment.ofProgram p = .ok env) (hcheck : (Check.program env p).outcome = .ok q)
    {body : Stmt} {slots : List ParamDesc} (hbody : (body, slots) ∈ q.bodies)
    {counter : Designator} {first last : Expr} {down : Bool} {inner : Stmt}
    (hc : (Stmt.forDo counter first last down inner).Within body) {policy : Emit.CasePolicy}
    {s t : Emit.Supply} (hs : slots.length ≤ s.slot) {ops : List Op}
    (hgen : Emit.stmt policy (.forDo counter first last down inner) s = .ok (ops, t)) :
    ∃ v enter ops' u u', counter = .ofSymbol v ∧ Emit.stmt policy inner u = .ok (ops', u') ∧
      CodeAt (emitted ops) enter (emitted ops') ∧
      ∀ (w : World) (next : Config → Eval Config) (code : List Instr) (pc : Nat) (l : LoopSpan),
        w.Sound q.globals → (boundLabels code).Nodup → CodeAt code pc (emitted ops) →
        w.ExtendedBy code next → l = .standing pc enter (emitted ops) (emitted ops') →
        ∀ (σ τ : Store) (a b : Int32) (st : List Value) (Inv : Store → Prop),
        σ.Sound q.globals slots ∅ → w.value first σ = .ok (.int a, τ) → keeps v a = a →
        (∀ υ, w.assign v first σ = .ok υ → Inv υ) →
        Steady w next l q.globals slots v last down b st Inv →
        (passed down b (edge v down) = true →
          ∃ ds υ, Rounds next l ⟨pc, st, σ⟩ ds ⟨l.last, st, υ⟩ ∧
            Counted w v (values down a.toInt (count down a b)) ds) ∧
        (passed down b (edge v down) = false →
          (∀ n, ∃ ds d, ds.length = n ∧ Rounds next l ⟨pc, st, σ⟩ ds d) ∧
          ∀ ds d, Rounds next l ⟨pc, st, σ⟩ ds d → d.pc ≠ l.last) := by
  obtain ⟨Γ, hstatics, rfl, hwt⟩ := (wellTyped_of_checked hparse henv hcheck).statement hbody hc
  obtain ⟨v, enter, ops', u, u', hv, hdeclared, hord, hinner, hat, hfor⟩ :=
    forDo_layout hwt hs hgen
  refine ⟨v, enter, ops', u, u', hv, hinner, hat, ?_⟩
  rintro w next code pc _ hw hn hcode hnext rfl σ τ a b st Inv hσ hfirst hkeeps hInv hsteady
  rw [← hstatics] at hw hσ hsteady
  obtain ⟨top, hfor⟩ := hfor w next code pc hw hn hcode hnext
  obtain ⟨υ, hassign, ha⟩ := assign_ok hw hdeclared hord hwt.2.2.1 hσ hfirst
  rw [hkeeps] at ha
  refine ⟨fun hedge => ?_, fun hedge => ?_⟩
  · obtain ⟨μ, hagree, hstart⟩ := hfor.start st hσ hassign
    obtain ⟨ds, ν, hrun, hds⟩ :=
      hfor.counts hord hdeclared hsteady hedge (hInv υ hassign) hagree ha hkeeps
    exact ⟨ds, ν, hstart.trans hrun, hds⟩
  · exact hfor.never_left hord hdeclared hsteady hedge hσ hassign (hInv υ hassign) ha hkeeps

section

open Run

/-- A loop with constant bounds: its counter, its bounds, its direction and its body. -/
def constantLoop? : Stmt → Option (Symbol × Int32 × Int32 × Bool × Stmt)
  | .forDo ⟨.root v, _⟩ (.int _ a) (.int _ b) down inner => some (v, a, b, down, inner)
  | _ => none

lemma eq_of_constantLoop? {Γ : Variables} {c inner : Stmt} {v : Symbol} {a b : Int32} {down : Bool}
    (hc : c.WellTyped Γ) (h : constantLoop? c = some (v, a, b, down, inner)) : ∃ t₁ t₂,
      c = .forDo (.ofSymbol v) (.int t₁ a) (.int t₂ b) down inner := by
  unfold constantLoop? at h
  split at h
  next =>
    cases h
    obtain ⟨v', hv⟩ := hc.2.2.2.2.2.2.2
    cases hv
    exact ⟨_, _, rfl⟩
  next => cases h

lemma Run.Agree.sound {Γ : Variables} {K : Set Nat} {σ μ : Store} (h : Agree Γ.slots.length σ μ)
    (hσ : σ.Sound Γ.statics Γ.slots K) : μ.Sound Γ.statics Γ.slots K where
  wellTyped := h.wellTyped hσ.wellTyped
  shared := by
    have hshared : μ.shared = σ.shared := by rw [Store.shared, h.statics, h.heap, Store.shared]
    rw [hshared]
    exact hσ.shared
  slots {n} hn {v} hv := by
    rw [h.heap]
    exact hσ.slots hn ((h.slots hn).symm.trans hv)

lemma write_counter_sound {host : Host} {Γ : Variables} {v : Symbol} {i : Int32} {σ τ : Store}
    {loc : Location} (hσ : σ.Sound Γ.statics Γ.slots ∅) (hv : v.Declared Γ)
    (hord : v.ty.isOrdinal = true) (hloc : locate host σ (.root v) = .ok loc)
    (h : σ.write (.ofTy v.ty) (.int i) loc = .ok τ) : τ.Sound Γ.statics Γ.slots ∅ := by
  have hholds := (root_safe hσ.wellTyped v hv).of_ok hloc
  exact ((write_keeps hσ (root_clear hσ hv hloc) hholds (Ty.isAggregate_of_isOrdinal hord)
    (hasTy_int hord i)).of_ok h).sound

/-- The statement ends in every sound store, which stays sound, and leaves the counter alone. -/
def SparesCounter (host : Host) (Γ : Variables) (v : Symbol) (c : Stmt) : Prop :=
  c.callFree = true ∧ ∀ σ : Store, σ.Sound Γ.statics Γ.slots ∅ → ∃ τ, exec host 0 c σ = .ok τ ∧
    τ.Sound Γ.statics Γ.slots ∅ ∧
    counterValue host (.ofSymbol v) τ = counterValue host (.ofSymbol v) σ

/-- There is nothing in the statement. -/
def isIdle : Stmt → Bool
  | .compound [] => true
  | _ => false

lemma sparesCounter_of_isIdle {c : Stmt} (host : Host) (Γ : Variables) (v : Symbol)
    (h : isIdle c = true) : SparesCounter host Γ v c := by
  unfold isIdle at h
  split at h
  next => exact ⟨rfl, fun σ hσ => ⟨σ, rfl, hσ, rfl⟩⟩
  next => cases h

/-- The statement adds a constant to a number, and stores the sum in a variable of the program that
is not the counter. -/
def addsBeside (v : Symbol) : Stmt → Bool
  | .assign ⟨.root ⟨_, .static name, t⟩, _⟩ (.binary _ .add (.read _ (.root m) _) (.int _ _)) =>
      t.isOrdinal && m.ty.isOrdinal && v.storage ≠ .static name
  | _ => false

lemma sparesCounter_of_addsBeside {Γ : Variables} {v : Symbol} {c : Stmt} (host : Host)
    (hc : c.WellTyped Γ) (h : addsBeside v c = true) : SparesCounter host Γ v c := by
  unfold addsBeside at h
  split at h
  next label name t u resultTy readTy m placeTy constTy k =>
    simp only [Bool.and_eq_true, decide_eq_true_eq] at h
    obtain ⟨⟨ht, hm⟩, hne⟩ := h
    obtain ⟨⟨hplace, hty⟩, ⟨⟨hdeclared, -⟩, -⟩, -⟩ := hc
    refine ⟨rfl, fun σ hσ => ?_⟩
    obtain ⟨loc, x, hloc, hread⟩ := locate_root_ok host hσ.wellTyped hdeclared
    have hx : HasTy σ.heap m.ty x :=
      (read_safe ((root_safe hσ.wellTyped m hdeclared).of_ok hloc)).of_ok hread
    obtain ⟨i, rfl⟩ := hx.eq_int hm
    obtain ⟨τ, hτ⟩ : ∃ τ, σ.write (.ofTy t) (.int (i + k)) (.static name) = .ok τ := ⟨_, rfl⟩
    have htarget : locate host σ (.root ⟨label, .static name, t⟩) = .ok (.static name) := rfl
    have hsound : τ.Sound Γ.statics Γ.slots ∅ := write_counter_sound hσ hplace ht htarget hτ
    refine ⟨τ, ?_, hsound, counterValue_of_write_static hne hτ⟩
    obtain rfl : u = t := hty
    have hsum : binary host .add (.int i) (.int k) = .ok (.int (i + k)) := rfl
    simp only [exec, assign, eval, bind_eq_ok]
    refine ⟨_, htarget, _, ⟨_, ⟨loc, hloc, hread⟩, _, rfl, hsum⟩, _, ?_, hτ⟩
    rw [widened, (Emit.is_of_isOrdinal ht).1]
    rfl
  next => cases h

/-- A loop with constant bounds is steady if its body leaves the counter alone. -/
lemma constant_loop_steady {w : World} {Γ : Variables} {v : Symbol} {down : Bool} {a b : Int32}
    {t₁ t₂ : Ty} {inner : Stmt} {policy : Emit.CasePolicy} {s t : Emit.Supply} {ops : List Op}
    {code : List Instr} {next : Config → Eval Config} {l : LoopSpan} {st : List Value}
    (hv : v.Declared Γ) (hord : v.ty.isOrdinal = true) (hinner : inner.WellTyped Γ)
    (hspares : SparesCounter w.toHost Γ v inner)
    (hgen : Emit.stmt policy inner s = .ok (ops, t)) (hn : (boundLabels code).Nodup)
    (hcode : CodeAt code l.enter (emitted ops)) (hnext : w.ExtendedBy code next)
    (hleave : l.leave = l.enter + (emitted ops).length) {σ : Store}
    (hσ : σ.Sound Γ.statics Γ.slots ∅) :
    (∀ υ, w.assign v (.int t₁ a) σ = .ok υ → υ.Sound Γ.statics Γ.slots ∅) ∧
    Steady w next l Γ.statics Γ.slots v (.int t₂ b) down b st
      fun σ => σ.Sound Γ.statics Γ.slots ∅ := by
  refine ⟨fun υ hυ => ?_, id, fun {σ} _ => ⟨σ, by rw [World.value], rfl⟩, ?_⟩
  · simp only [World.assign, World.position, World.value, bind_assoc, pure_bind, bind_eq_ok] at hυ
    obtain ⟨loc, hloc, _, ⟨⟩, hwrite⟩ := hυ
    exact write_counter_sound hσ hv hord hloc hwrite
  · intro σ τ μ i h hlimit hi _ hagree
    rw [World.value] at hlimit
    cases hlimit
    have hμ := hagree.sound h
    obtain ⟨ν, hexec, hν, hsame⟩ := hspares.2 μ hμ
    have hreaches := (stmt_performs 0 inner hinner hspares.1 hgen hμ.wellTyped st).reaches
      (nodup_of_codeAt hn hcode) hexec
    refine ⟨ν, .of_leads hn hcode hnext hleave (.of_reaches hreaches), hν.wellTyped, ?_, ?_⟩
    · rw [hsame, hagree.counterValue hv, hi]
    · intro υ hυ
      simp only [advance, bind_eq_ok] at hυ
      obtain ⟨loc, hloc, j, -, hwrite⟩ := hυ
      exact write_counter_sound hν hv hord hloc hwrite

/-- A store in which every variable is zero. -/
def zeroStore : Store := ⟨fun _ => some (.int 0), fun _ => none, fun _ => none⟩

lemma zeroStore_sound {globals : List (String × Ty)}
    (h : globals.all (fun g => g.2.isOrdinal) = true) : zeroStore.Sound globals [] ∅ where
  wellTyped :=
    { statics := fun {name t} ht => by
        obtain ⟨before, after, rfl, -⟩ := List.lookup_eq_some_iff.mp ht
        have hord : t.isOrdinal = true := List.all_eq_true.mp h (name, t) (by simp)
        exact ⟨.int 0, rfl, hasTy_int hord 0⟩
      slots := fun h => (nomatch h) }
  shared :=
    { present := fun h => h.elim
      statics := fun {name v} hv => by
        cases hv
        trivial
      objects := fun _ h => (nomatch h) }
  slots h := nomatch h

/-- The first statement of the program, if it is a loop with constant bounds and a body that suits
its counter: what the counter keeps, the bounds and the direction. -/
def firstLoop? (suits : Symbol → Stmt → Bool) (source : List Char) :
    Option (Option Int32 × Int32 × Int32 × Bool) :=
  (Compile.checked source).outcome.toOption.bind fun q => q.bodies.head?.bind fun body =>
    body.1.parts.head?.bind fun c => (constantLoop? c).bind fun r =>
      (Emit.stmt .reject c (.startingAt 0)).toOption.bind fun _ =>
        if q.globals.all (fun g => g.2.isOrdinal) && body.2.isEmpty && suits r.1 r.2.2.2.2 then
          some (mask? r.1, r.2.1, r.2.2.1, r.2.2.2.1)
        else none

/-- What is known of such a program. -/
structure FirstLoop (source : List Char) (c : Stmt) (v : Symbol) (ops : List Op) (q : Program)
    (Γ : Variables) : Prop where
  checked : (Compile.checked source).outcome = .ok q
  within : ∃ body, (body, []) ∈ q.bodies ∧ c.Within body
  generated : ∃ t, Emit.stmt .reject c (.startingAt 0) = .ok (ops, t)
  statics : Γ.statics = q.globals
  slots : Γ.slots = []
  wellTyped : c.WellTyped Γ
  declared : v.Declared Γ
  ordinal : v.ty.isOrdinal = true
  sound : zeroStore.Sound Γ.statics Γ.slots ∅

lemma of_firstLoop? {suits : Symbol → Stmt → Bool} {source : List Char} {m : Option Int32}
    {a b : Int32} {down : Bool} (h : firstLoop? suits source = some (m, a, b, down)) :
    ∃ v t₁ t₂ inner ops q Γ, mask? v = m ∧ suits v inner = true ∧
      FirstLoop source (.forDo (.ofSymbol v) (.int t₁ a) (.int t₂ b) down inner) v ops q Γ := by
  obtain ⟨q, hq, h⟩ := Option.bind_eq_some_iff.mp h
  obtain ⟨⟨body, slots⟩, hbody, h⟩ := Option.bind_eq_some_iff.mp h
  obtain ⟨c, hc, h⟩ := Option.bind_eq_some_iff.mp h
  obtain ⟨⟨v, a, b, down, inner⟩, hloop, h⟩ := Option.bind_eq_some_iff.mp h
  obtain ⟨⟨ops, u⟩, hgen, h⟩ := Option.bind_eq_some_iff.mp h
  rw [toOption_eq_some] at hq hgen
  split_ifs at h with hvars
  cases h
  simp only [Bool.and_eq_true] at hvars
  obtain ⟨⟨hglobals, hslots⟩, hsuits⟩ := hvars
  obtain rfl : slots = [] := List.isEmpty_iff.mp hslots
  obtain ⟨p, env, hparse, henv, hcheck⟩ := Compile.checked_ok.mp hq
  have hbody := List.mem_of_head? hbody
  have hc : c.Within body := .single (List.mem_of_head? hc)
  obtain ⟨Γ, hstatics, hslots, hwt⟩ := (wellTyped_of_checked hparse henv hcheck).statement hbody hc
  obtain ⟨t₁, t₂, rfl⟩ := eq_of_constantLoop? hwt hloop
  refine ⟨v, t₁, t₂, inner, ops, q, Γ, rfl, hsuits, hq, ⟨body, hbody, hc⟩, ⟨u, hgen⟩, hstatics,
    hslots, hwt, hwt.1.place, hwt.2.1, ?_⟩
  rw [hstatics, hslots]
  exact zeroStore_sound hglobals

namespace FirstLoop

variable {source : List Char} {v : Symbol} {a b : Int32} {t₁ t₂ : Ty} {down : Bool} {inner : Stmt}
  {ops ops' : List Op} {q : Program} {Γ : Variables} {enter : Nat} {s t : Emit.Supply}

lemma nodup {c : Stmt} (h : FirstLoop source c v ops q Γ) : (boundLabels (emitted ops)).Nodup := by
  obtain ⟨t, hgen⟩ := h.generated
  exact (Emit.stmt_spans _ _ _ _ _ hgen).1.nodup

lemma body_wellTyped
    (h : FirstLoop source (.forDo (.ofSymbol v) (.int t₁ a) (.int t₂ b) down inner) v ops q Γ) :
    inner.WellTyped Γ :=
  h.wellTyped.2.2.2.2.2.2.1

lemma steady
    (h : FirstLoop source (.forDo (.ofSymbol v) (.int t₁ a) (.int t₂ b) down inner) v ops q Γ)
    (hspares : SparesCounter bumpWorld.toHost Γ v inner)
    (hinner : Emit.stmt .reject inner s = .ok (ops', t))
    (hat : CodeAt (emitted ops) enter (emitted ops')) :
    (∀ υ, bumpWorld.assign v (.int t₁ a) zeroStore = .ok υ → υ.Sound Γ.statics Γ.slots ∅) ∧
    Steady bumpWorld (bumpWorld.step (emitted ops))
      (.standing 0 enter (emitted ops) (emitted ops')) Γ.statics Γ.slots v (.int t₂ b) down b []
      fun σ => σ.Sound Γ.statics Γ.slots ∅ := by
  have hcode : CodeAt (emitted ops) (0 + enter) (emitted ops') := by rwa [Nat.zero_add]
  exact constant_loop_steady h.declared h.ordinal h.body_wellTyped hspares hinner h.nodup hcode
    (fun _ _ => rfl) rfl h.sound

end FirstLoop

/-- A loop over characters in a static variable, which counts them in another one. -/
def lettersSource : List Char :=
  "program p; var c: char; n: integer; begin for c := 'z' downto 'x' do n := n + 1 end.".toList

theorem lettersSource_counts : ∃ v t₁ t₂ inner ops q Γ enter ops' ds υ,
    FirstLoop lettersSource (.forDo (.ofSymbol v) (.int t₁ 122) (.int t₂ 120) true inner) v ops
      q Γ ∧ addsBeside v inner = true ∧
    Rounds (bumpWorld.step (emitted ops)) (.standing 0 enter (emitted ops) (emitted ops'))
      ⟨0, [], zeroStore⟩ ds ⟨(emitted ops).length, [], υ⟩ ∧
    Counted bumpWorld v [122, 121, 120] ds := by
  have hloop : firstLoop? addsBeside lettersSource = some (some 0xFFFF, 122, 120, true) := by
    decide +kernel
  obtain ⟨v, t₁, t₂, inner, ops, q, Γ, hmask, hadds, h⟩ := of_firstLoop? hloop
  obtain ⟨p, env, hparse, henv, hcheck⟩ := Compile.checked_ok.mp h.checked
  obtain ⟨body, hbody, hc⟩ := h.within
  obtain ⟨t, hgen⟩ := h.generated
  obtain ⟨v', enter, ops', x, x', hv, hinner, hat, hall⟩ :=
    for_ends_iff_limit_before_edge hparse henv hcheck hbody hc (by simp) hgen
  obtain rfl : v = v' := by
    cases hv
    rfl
  rw [← h.statics, ← h.slots] at hall
  have hspares := sparesCounter_of_addsBeside bumpWorld.toHost h.body_wellTyped hadds
  obtain ⟨hassign, hsteady⟩ := h.steady hspares hinner hat
  have hends := (hall bumpWorld (bumpWorld.step (emitted ops)) (emitted ops) 0 _
    (bumpWorld_sound _) h.nodup codeAt_self (fun _ _ => rfl) rfl
    zeroStore zeroStore 122 120 [] _ h.sound (by rw [World.value])
    (by simp only [keeps, hmask]; decide) hassign hsteady).1
  obtain ⟨ds, υ, hrun, hds⟩ := hends (by simp only [edge, hmask]; decide)
  exact ⟨v, t₁, t₂, inner, ops, q, Γ, enter, ops', ds, υ, h, hadds,
    by simpa [LoopSpan.standing] using hrun, hds⟩

/-- A loop over all truth values in a static variable. -/
def truthSource : List Char :=
  "program p; var b: boolean; begin for b := false to true do begin end end.".toList

/-- There are two truth values, but the loop over them never ends. -/
theorem truthSource_never_ends : ∃ v c ops q Γ enter ops', FirstLoop truthSource c v ops q Γ ∧
    count false 0 1 = 2 ∧
    (∀ n, ∃ ds d, ds.length = n ∧ Rounds (bumpWorld.step (emitted ops))
      (.standing 0 enter (emitted ops) (emitted ops')) ⟨0, [], zeroStore⟩ ds d) ∧
    ∀ ds d, Rounds (bumpWorld.step (emitted ops))
      (.standing 0 enter (emitted ops) (emitted ops')) ⟨0, [], zeroStore⟩ ds d →
      d.pc ≠ (emitted ops).length := by
  have hloop : firstLoop? (fun _ => isIdle) truthSource = some (some 1, 0, 1, false) := by
    decide +kernel
  obtain ⟨v, t₁, t₂, inner, ops, q, Γ, hmask, hidle, h⟩ := of_firstLoop? hloop
  obtain ⟨t, hgen⟩ := h.generated
  obtain ⟨v', enter, ops', x, x', hv, -, -, hinner, hat, hall⟩ :=
    forDo_layout h.wellTyped (by simp [h.slots]) hgen
  obtain rfl : v = v' := by
    cases hv
    rfl
  obtain ⟨top, hfor⟩ := hall bumpWorld (bumpWorld.step (emitted ops)) (emitted ops) 0
    (bumpWorld_sound _) h.nodup codeAt_self (fun _ _ => rfl)
  have hspares := sparesCounter_of_isIdle bumpWorld.toHost Γ v hidle
  obtain ⟨hassign, hsteady⟩ := h.steady hspares hinner hat
  obtain ⟨τ, hτ, hi⟩ := assign_ok (bumpWorld_sound _) h.declared h.ordinal h.wellTyped.2.2.1
    h.sound (show bumpWorld.value (.int t₁ 0) zeroStore = .ok (.int 0, zeroStore) by
      rw [World.value])
  have hkeeps : keeps v 0 = 0 := by
    simp only [keeps, hmask]
    decide
  rw [hkeeps] at hi
  obtain ⟨hlong, hnever⟩ := hfor.never_left h.ordinal h.declared hsteady
    (by simp only [edge, hmask]; decide) h.sound hτ (hassign τ hτ) hi hkeeps
  exact ⟨v, _, ops, q, Γ, enter, ops', h, by decide, hlong,
    by simpa [LoopSpan.standing] using hnever⟩

end

end PascalJvm
