import Mathlib.Data.List.Forall2
import Mathlib.Data.Option.Basic
import Mathlib.Tactic
import PascalJvm.Proofs.Reach

/-!
# Passing arguments

The meaning of expressions with calls, to any depth. A routine that is called works on what it
shares with its caller, the static variables and the heap; what it does there is left to the
surroundings (`World`). A scalar variable is passed by reference in a cell, an array with one
element that is made for the call, and after the return what the cell then holds is stored back
into the variable.

A routine cannot touch what it cannot reach (`Shared.Returned`). A cell that waits for its call
is referred to by nothing but the call, so the calls in the arguments that come after it leave
its content alone: on well-typed trees and stores every argument is passed as it was evaluated
(`passAll_safe`).
-/
namespace PascalJvm

lemma Passing.scalar_of_inCell {p : Passing} (h : p.inCell = true) : p.ty.isAggregate = false := by
  simpa [Passing.inCell] using (Bool.and_eq_true_iff.mp h).2

namespace Run

open Jvm Typed

/-- What a body leaves to its surroundings. -/
structure World extends Host where
  /-- an address for a new object -/
  room : Heap → Eval Nat
  /-- what a new array is filled with -/
  blank : Ty → Value
  call : MethodRef → List Value → Shared → Eval (Option Value × Shared)

/-- An argument that was passed: a value, or a new cell with the value that it was given. -/
inductive Passed
  | direct (v : Value)
  | cell (address : Nat) (content : Value)
deriving DecidableEq, Repr

namespace Passed

def operand : Passed → Value
  | direct v => v
  | cell a _ => .ref a

def address? : Passed → Option Nat
  | direct _ => none
  | cell a _ => some a

end Passed

/-- The value at a place that is found. -/
def reading (find : Store → Eval (Location × Store)) (σ : Store) : Eval (Value × Store) := do
  let (loc, σ) ← find σ
  return (← σ.read loc, σ)

/-- What the cell holds is stored at a place that is found. -/
def restore (find : Store → Eval (Location × Store)) (cell : Nat) (t : Ty) (σ : Store) :
    Eval Store := do
  let (loc, σ) ← find σ
  let v ← σ.read (.element cell 0)
  σ.write (.ofTy t) v loc

namespace World

variable (w : World)

/-- A call: the arguments are passed, the routine returns, and the cells are stored back. -/
def invoke (callee : Signature) (pass : Store → Eval (List Passed × Store))
    (back : List Passed → Store → Eval Store) (σ : Store) : Eval (Option Value × Store) := do
  let (passed, σ) ← pass σ
  let (r, g) ← w.call (.ofSignature callee) (passed.map Passed.operand) σ.shared
  return (r, ← back passed (σ.resume g))

/-- A value that is passed to a parameter, widened if the parameter is real. -/
def give (t : Ty) (eval : Store → Eval (Value × Store)) (σ : Store) : Eval (Passed × Store) := do
  let (v, σ) ← eval σ
  return (.direct (← widened w.toHost t v), σ)

/-- A variable that is passed by reference: an object as it is, a cell as it is, and any other
scalar in a new cell. -/
def lend (t : Ty) (place : Place) (fetch : Store → Eval (Value × Store)) (σ : Store) :
    Eval (Passed × Store) :=
  if t.isAggregate then do
    let (v, σ) ← fetch σ
    return (.direct v, σ)
  else
    match Emit.ownCell? place with
    | some n => do return (.direct (← σ.read (.slot n)), σ)
    | none => do
        let a ← w.room σ.heap
        let (v, σ) ← fetch (σ.put a (.array [w.blank t]))
        return (.cell a v, ← σ.write (.ofTy t) v (.element a 0))

mutual

/-- The value of an expression, and the store after it. -/
def value : Expr → Store → Eval (Value × Store)
  | .int _ i, σ => .ok (.int i, σ)
  | .real _ x, σ => .ok (.real x, σ)
  | .text _ s, σ => .ok (.text s, σ)
  | .read _ place _, σ => reading (fun σ => position place σ) σ
  | .call _ callee args, σ => do
      let (r, σ) ← w.invoke callee (fun σ => passAll callee.params args σ)
        (fun passed σ => storeBack passed args σ) σ
      return (← Store.orStuck r, σ)
  | .unary _ op x, σ => do
      let (v, σ) ← value x σ
      return (← unary w.toHost op v, σ)
  | .binary _ op a b, σ => do
      let (u, σ) ← value a σ
      let (v, σ) ← value b σ
      return (← binary w.toHost op u v, σ)

/-- Where a place is. The object that holds it is found before the index is evaluated. -/
def position : Place → Store → Eval (Location × Store)
  | .root s, σ => do return (← locate w.toHost σ (.root s), σ)
  | .field base _ name _, σ => do
      let (v, σ) ← reading (fun σ => position base σ) σ
      return (.field (← asRef v) name, σ)
  | .element base index low _, σ => do
      let (v, σ) ← reading (fun σ => position base σ) σ
      let array ← asRef v
      let (v, σ) ← value index σ
      return (.element array ((← asInt v).toInt - low.toInt), σ)

/-- The arguments of a call, one after the other. -/
def passAll : List Passing → List Arg → Store → Eval (List Passed × Store)
  | p :: params, .value e :: args, σ => do
      let (x, σ) ← w.give p.ty (fun σ => value e σ) σ
      let (rest, σ) ← passAll params args σ
      return (x :: rest, σ)
  | p :: params, .ref place _ :: args, σ => do
      let (x, σ) ← w.lend p.ty place (reading fun σ => position place σ) σ
      let (rest, σ) ← passAll params args σ
      return (x :: rest, σ)
  | _, _, σ => .ok ([], σ)

/-- What the cells hold is stored back, one after the other. -/
def storeBack : List Passed → List Arg → Store → Eval Store
  | .cell a _ :: passed, .ref place t :: args, σ => do
      storeBack passed args (← restore (fun σ => position place σ) a t σ)
  | _ :: passed, _ :: args, σ => storeBack passed args σ
  | _, _, σ => .ok σ

end

/-- The value of a place. -/
def fetch (p : Place) : Store → Eval (Value × Store) := reading (w.position p)

/-- A call of a routine. -/
def perform (callee : Signature) (args : List Arg) : Store → Eval (Option Value × Store) :=
  w.invoke callee (w.passAll callee.params args) fun passed => w.storeBack passed args

end World

/-- The argument is one that the parameter takes: a cell, or a value of the same type. -/
def Fits (heap : Heap) (p : Passing) (v : Value) : Prop :=
  if p.inCell then HasTy heap (.array 0 1 p.ty) v else ∃ t, p.ty.same t = true ∧ HasTy heap t v

/-- What every routine does on its return. It keeps the shape of what is shared and has a result
of its type; and it cannot touch, or leave a way to, what neither the static variables nor the
arguments lead to. -/
structure Shared.Returned (g : Shared) (args : List Value) (result : Option Ty)
    (r : Option Value) (g' : Shared) : Prop where
  statics : MapsAlike g.statics g'.statics
  heap : HeapsAlike g.heap g'.heap
  result : Option.Rel (HasTy g'.heap) result r
  hides {K : Set Nat} (hK : g.Hides K) (hargs : ∀ v ∈ args, v.Clear g.heap K) :
    g'.Hides K ∧ (∀ v ∈ r, v.Clear g'.heap K) ∧ ∀ a ∈ K, g'.heap a = g.heap a

/-- New objects have an address of their own, and routines that are called with arguments for
their parameters return, trap, or do not come back. -/
structure World.Sound (w : World) (statics : List (String × Ty)) : Prop where
  room (heap : Heap) : Safe (fun a => heap a = none) (w.room heap)
  call {callee : Signature} {args : List Value} {g : Shared}
    (hstatics : ∀ {name t}, statics.lookup name = some t →
      ∃ v, g.statics name = some v ∧ HasTy g.heap t v)
    (hargs : List.Forall₂ (Fits g.heap) callee.params args) :
    Safe (fun r => g.Returned args callee.result r.1 r.2) (w.call (.ofSignature callee) args g)

namespace Passed

/-- The cell that the argument was passed in, if it was made for it. -/
def own (x : Passed) : Set Nat := {a | x.address? = some a}

/-- A new cell holds the value that it was given. -/
def Stands (heap : Heap) (p : Passing) : Passed → Prop
  | .direct _ => True
  | .cell a v => p.inCell = true ∧ heap a = some (.array [narrow (.ofTy p.ty) v])

/-- What a new cell holds can be stored back. -/
def Returns (heap : Heap) (p : Passing) : Passed → Prop
  | .direct _ => True
  | .cell a _ => p.inCell = true ∧ HasTy heap (.array 0 1 p.ty) (.ref a)

end Passed

/-- One argument was passed. If that made a cell, the cell is hidden. -/
structure Lent (Γ : Variables) (K : Set Nat) (p : Passing) (σ : Store) (x : Passed) (τ : Store) :
    Prop where
  alike : σ.Alike τ
  sound : τ.Sound Γ.statics Γ.slots (x.own ∪ K)
  frame {a : Nat} (ha : a ∈ K) : τ.heap a = σ.heap a
  fits : Fits τ.heap p x.operand
  clear : x.operand.Clear τ.heap K
  stands : x.Stands τ.heap p
  fresh {a : Nat} (ha : a ∈ x.own) : σ.heap a = none

/-- The arguments were passed, each new cell with the value that it was given. -/
structure Handed (Γ : Variables) (K : Set Nat) (params : List Passing) (σ : Store)
    (passed : List Passed) (τ : Store) : Prop where
  keeps : Keeps Γ K σ τ
  each : List.Forall₂ (fun p x => Fits τ.heap p x.operand ∧ x.operand.Clear τ.heap K ∧
    x.Stands τ.heap p) params passed
  fresh {a : Nat} (ha : a ∈ passed.filterMap Passed.address?) : σ.heap a = none
  distinct : (passed.filterMap Passed.address?).Nodup

section

variable {Γ : Variables} {K : Set Nat} {σ τ υ : Store} {p : Passing} {params : List Passing}
  {x : Passed} {passed : List Passed}

lemma Fits.alike {h h' : Heap} {v : Value} (hv : Fits h p v) (hh : HeapsAlike h h') :
    Fits h' p v := by
  unfold Fits at hv ⊢
  split_ifs at hv ⊢
  · exact hv.alike hh _ (.refl v)
  · obtain ⟨t, ht, hty⟩ := hv
    exact ⟨t, ht, hty.alike hh t (.refl v)⟩

lemma Lent.direct {v : Value} (h : Keeps Γ K σ τ) (hfits : Fits τ.heap p v)
    (hclear : v.Clear τ.heap K) : Lent Γ K p σ (.direct v) τ where
  alike := h.alike
  sound := by simpa [Passed.own, Passed.address?] using h.sound
  frame := h.frame
  fits := hfits
  clear := hclear
  stands := trivial
  fresh ha := by simp [Passed.own, Passed.address?] at ha

lemma Handed.nil (hσ : σ.Sound Γ.statics Γ.slots K) : Handed Γ K [] σ [] σ where
  keeps := .refl hσ
  each := .nil
  fresh ha := by simp at ha
  distinct := List.nodup_nil

lemma Handed.clear (h : Handed Γ K params σ passed τ) :
    ∀ x ∈ passed, x.operand.Clear τ.heap K := by
  have heach := h.each
  clear h
  induction heach with
  | nil => simp
  | cons hx _ ih => exact List.forall_mem_cons.mpr ⟨hx.2.1, ih⟩

lemma Passed.Stands.stays {h h' : Heap} (hx : x.Stands h p) (hh : ∀ a ∈ x.own, h' a = h a) :
    x.Stands h' p := by
  cases x with
  | direct v => trivial
  | cell a v => exact ⟨hx.1, (hh a rfl).trans hx.2⟩

/-- A cell holds a scalar, so it leads nowhere. -/
lemma Passed.Stands.clear {h : Heap} (hx : x.Stands h p) (hfits : Fits h p x.operand) {a : Nat}
    (ha : a ∈ x.own) {o : Object} (ho : h a = some o) : o.Clear h K := by
  cases x with
  | direct v => cases ha
  | cell b v =>
    cases ha
    obtain ⟨hcell, hb⟩ := hx
    unfold Fits at hfits
    rw [if_pos hcell] at hfits
    obtain ⟨u, hu, hty⟩ := hasTy_cell.mp hfits
    rw [hu, Option.some.injEq] at ho
    subst ho
    have hscalar := Passing.scalar_of_inCell hcell
    intro v' hv'
    rw [List.mem_singleton.mp hv']
    exact Value.clear_of_scalar hty hscalar K

/-- The arguments after the first one are passed while its cell is hidden. -/
lemma Lent.cons (h : Lent Γ K p σ x τ) (h' : Handed Γ (x.own ∪ K) params τ passed υ) :
    Handed Γ K (p :: params) σ (x :: passed) υ := by
  have hstands : x.Stands υ.heap p := h.stands.stays fun a ha => h'.keeps.frame (.inl ha)
  have hfits : Fits υ.heap p x.operand := h.fits.alike h'.keeps.alike.heap
  have hnone : ∀ {a}, τ.heap a = none → σ.heap a = none := by
    intro a ha
    cases ho : σ.heap a with
    | none => rfl
    | some o =>
      obtain ⟨o', ho', -⟩ := h.alike.heap a o ho
      rw [ha] at ho'
      cases ho'
  refine ⟨⟨h.alike.trans h'.keeps.alike, ?_, fun ha => ?_⟩, .cons ⟨hfits, ?_, hstands⟩ ?_,
    fun ha => ?_, ?_⟩
  · exact h'.keeps.sound.reveal fun a ha o ho => hstands.clear hfits ha ho
  · exact (h'.keeps.frame (.inr ha)).trans (h.frame ha)
  · exact h.clear.alike h'.keeps.alike.heap
  · exact h'.each.imp fun _ _ hy => ⟨hy.1, hy.2.1.mono Set.subset_union_right, hy.2.2⟩
  · obtain ⟨y, hy, hya⟩ := List.mem_filterMap.mp ha
    rcases List.mem_cons.mp hy with rfl | hy
    · exact h.fresh hya
    · exact hnone (h'.fresh (List.mem_filterMap.mpr ⟨y, hy, hya⟩))
  · cases x with
    | direct v => exact h'.distinct
    | cell a v =>
      refine List.nodup_cons.mpr ⟨fun ha => ?_, h'.distinct⟩
      have hsome := h.stands.2
      rw [h'.fresh ha] at hsome
      cases hsome

/-- A place is found where a value of its type is kept. -/
def Finds (Γ : Variables) (place : Place) (find : Store → Eval (Location × Store)) : Prop :=
  ∀ ⦃K : Set Nat⦄ ⦃σ : Store⦄, σ.Sound Γ.statics Γ.slots K → Safe (fun r => Keeps Γ K σ r.2 ∧
    r.1.Holds r.2 place.ty ∧ r.1.Clear Γ.slots.length K) (find σ)

lemma Finds.reading {place : Place} {find : Store → Eval (Location × Store)}
    (hfind : Finds Γ place find) (hσ : σ.Sound Γ.statics Γ.slots K) :
    Safe (fun r => Keeps Γ K σ r.2 ∧ HasTy r.2.heap place.ty r.1 ∧ r.1.Clear r.2.heap K)
      (reading find σ) :=
  (hfind hσ).bind fun (_, _) ⟨hkeeps, hholds, hclear⟩ =>
    (read_sound hkeeps.sound hclear hholds).bind fun _ hv => ⟨hkeeps, hv⟩

/-- A new cell with the value of a variable. -/
lemma lend_new {w : World} {place : Place} {find : Store → Eval (Location × Store)}
    (hw : w.Sound Γ.statics) (hfind : Finds Γ place find) (hσ : σ.Sound Γ.statics Γ.slots K)
    (hcell : p.inCell = true) (hty : p.ty = place.ty) :
    Safe (fun r => Lent Γ K p σ r.1 r.2) (do
      let a ← w.room σ.heap
      let (v, σ) ← reading find (σ.put a (.array [w.blank p.ty]))
      return (.cell a v, ← σ.write (.ofTy p.ty) v (.element a 0))) := by
  have hscalar := Passing.scalar_of_inCell hcell
  refine (hw.room σ.heap).bind fun a ha => ?_
  obtain ⟨halike, hput⟩ := put_new (.array [w.blank p.ty]) hσ ha
  refine (hfind.reading hput).bind fun (v, τ) ⟨hkeeps, hv, _⟩ => ?_
  have hsame : τ.heap a = some (.array [w.blank p.ty]) :=
    (hkeeps.frame (.inl rfl)).trans (σ.heap_put_self ..)
  change Safe _ (τ.write (.ofTy p.ty) v (.element a 0) >>= _)
  rw [write_cell hsame]
  have hne : ∀ {b o}, σ.heap b = some o → b ≠ a := by
    rintro b o ho rfl
    rw [ha] at ho
    cases ho
  have hK : a ∉ K := by
    intro haK
    obtain ⟨o, ho⟩ := hσ.shared.present haK
    exact hne ho rfl
  have hall := halike.trans hkeeps.alike
  have hfilled : σ.Alike (τ.put a (.array [narrow (.ofTy p.ty) v])) := by
    refine ⟨hall.statics, hall.slots, fun b o ho => ?_⟩
    rw [τ.heap_put_of_ne _ (hne ho)]
    exact hall.heap b o ho
  have hcontent : HasTy (τ.put a (.array [narrow (.ofTy p.ty) v])).heap p.ty
      (narrow (.ofTy p.ty) v) := by
    rw [← hty] at hv
    exact hv.of_scalar hscalar (alike_narrow _ v)
  refine ⟨hfilled, ?_, fun hb => ?_, ?_, ⟨hK, _, τ.heap_put_self ..⟩, ⟨hcell, τ.heap_put_self ..⟩,
    fun hb => ?_⟩
  · have hown : (Passed.cell a v).own ∪ K = insert a K := by
      ext b
      simp [Passed.own, Passed.address?, eq_comm]
    rw [hown]
    exact hkeeps.sound.put_hidden (.inl rfl) (hσ.wellTyped.alike hfilled)
  · obtain ⟨o, ho⟩ := hσ.shared.present hb
    rw [τ.heap_put_of_ne _ (hne ho), hkeeps.frame (.inr hb), σ.heap_put_of_ne _ (hne ho)]
  · rw [Fits, if_pos hcell]
    exact hasTy_cell.mpr ⟨_, τ.heap_put_self .., hcontent⟩
  · obtain rfl : a = _ := Option.some.inj hb
    exact ha

lemma lend_safe {w : World} {place : Place} {find : Store → Eval (Location × Store)}
    (hw : w.Sound Γ.statics) (hfind : Finds Γ place find) (hσ : σ.Sound Γ.statics Γ.slots K)
    (hplace : place.WellTyped Γ) (hby : p.byRef = true) (hsame : p.ty.same place.ty = true) :
    Safe (fun r => Lent Γ K p σ r.1 r.2) (w.lend p.ty place (reading find) σ) := by
  unfold World.lend
  split_ifs with hagg
  · refine (hfind.reading hσ).bind fun (v, τ) ⟨hkeeps, hv, hvc⟩ => ?_
    refine .direct hkeeps ?_ hvc
    rw [Fits, if_neg (by simp [Passing.inCell, hagg])]
    exact ⟨_, hsame, hv⟩
  · rw [Bool.not_eq_true] at hagg
    have hty := Ty.eq_of_same hsame hagg
    have hcell : p.inCell = true := by simp [Passing.inCell, hby, hagg]
    split
    next n hown =>
      obtain ⟨name, ty, rfl⟩ := Emit.eq_root_of_ownCell hown
      obtain ⟨v, hv, hvty⟩ := hσ.wellTyped.slots hplace
      rw [read_slot hv]
      refine .direct (.refl hσ) ?_ (hσ.slots (List.getElem?_eq_some_iff.mp hplace).1 hv)
      rw [Fits, if_pos hcell, hty]
      exact hvty
    next => exact lend_new hw hfind hσ hcell hty

/-- After a call, which leaves the slots alone. -/
lemma resume_keeps {g : Shared} {args : List Value} {result : Option Ty} {r : Option Value}
    (hσ : σ.Sound Γ.statics Γ.slots K) (h : σ.shared.Returned args result r g)
    (hargs : ∀ v ∈ args, v.Clear σ.heap K) :
    Keeps Γ K σ (σ.resume g) ∧ ∀ v ∈ r, v.Clear (σ.resume g).heap K := by
  obtain ⟨hhides, hclear, hframe⟩ := h.hides hσ.shared hargs
  have halike : σ.Alike (σ.resume g) := ⟨h.statics, .refl _, h.heap⟩
  refine ⟨⟨halike, ⟨hσ.wellTyped.alike halike, hhides, fun hn _ hv => ?_⟩, fun ha => hframe _ ha⟩,
    hclear⟩
  exact (hσ.slots hn hv).alike h.heap

lemma Passed.Returns.alike {h h' : Heap} (hx : x.Returns h p) (hh : HeapsAlike h h') :
    x.Returns h' p := by
  cases x with
  | direct v => trivial
  | cell a v => exact ⟨hx.1, hx.2.alike hh _ (.refl _)⟩

lemma Passed.Stands.returns {h : Heap} (hx : x.Stands h p) (hfits : Fits h p x.operand) :
    x.Returns h p := by
  cases x with
  | direct v => trivial
  | cell a v =>
    rw [Fits, if_pos hx.1] at hfits
    exact ⟨hx.1, hfits⟩

lemma restore_safe {place : Place} {find : Store → Eval (Location × Store)}
    (hfind : Finds Γ place find) (hσ : σ.Sound Γ.statics Γ.slots K)
    (hsame : p.ty.same place.ty = true) {a : Nat} {v : Value}
    (hx : (Passed.cell a v).Returns σ.heap p) : Safe (Keeps Γ K σ) (restore find a place.ty σ) := by
  obtain ⟨hcell, hcontent⟩ := hx
  have hscalar := Passing.scalar_of_inCell hcell
  have hty := Ty.eq_of_same hsame hscalar
  refine (hfind hσ).bind fun (loc, τ) ⟨hτ, hholds, hclear⟩ => ?_
  obtain ⟨u, hu, huty⟩ := hasTy_cell.mp (hτ.hasTy hcontent)
  change Safe _ (τ.read (.element a 0) >>= _)
  rw [read_cell hu]
  rw [hty] at huty hscalar
  exact (write_keeps hτ.sound hclear hholds hscalar huty).mono fun _ => hτ.trans

/-- What a routine leaves behind that was called with the arguments that were passed. -/
structure Left (Γ : Variables) (K : Set Nat) (callee : Signature) (passed : List Passed)
    (τ : Store) (r : Option Value) (g : Shared) : Prop where
  keeps : Keeps Γ K τ (τ.resume g)
  returns : List.Forall₂ (fun p x => Passed.Returns g.heap p x) callee.params passed
  result : Option.Rel (HasTy g.heap) callee.result r
  clear : ∀ v ∈ r, v.Clear g.heap K

lemma Handed.call_safe {w : World} {callee : Signature} (hw : w.Sound Γ.statics)
    (h : Handed Γ K callee.params σ passed τ) : Safe (fun r => Left Γ K callee passed τ r.1 r.2)
      (w.call (.ofSignature callee) (passed.map Passed.operand) τ.shared) := by
  have hfits : List.Forall₂ (Fits τ.heap) callee.params (passed.map Passed.operand) :=
    List.forall₂_map_right_iff.mpr (h.each.imp fun _ _ hx => hx.1)
  have hclear : ∀ v ∈ passed.map Passed.operand, v.Clear τ.heap K := by
    intro v hv
    obtain ⟨x, hx, rfl⟩ := List.mem_map.mp hv
    exact h.clear x hx
  refine (hw.call (g := τ.shared) h.keeps.sound.wellTyped.statics hfits).mono
    fun (r, g) hreturned => ?_
  obtain ⟨hkeeps, hresult⟩ := resume_keeps h.keeps.sound hreturned hclear
  exact ⟨hkeeps, h.each.imp fun _ _ hx => (hx.2.2.returns hx.1).alike hreturned.heap,
    hreturned.result, hresult⟩

/-- A call keeps what it does not reach, and has a result of its type. -/
lemma invoke_safe {w : World} {callee : Signature} {pass : Store → Eval (List Passed × Store)}
    {back : List Passed → Store → Eval Store} (hw : w.Sound Γ.statics)
    (hpass : Safe (fun r => Handed Γ K callee.params σ r.1 r.2) (pass σ))
    (hback : ∀ passed τ, τ.Sound Γ.statics Γ.slots K →
      List.Forall₂ (fun p x => Passed.Returns τ.heap p x) callee.params passed →
      Safe (Keeps Γ K τ) (back passed τ)) :
    Safe (fun r => Keeps Γ K σ r.2 ∧ Option.Rel (HasTy r.2.heap) callee.result r.1 ∧
      ∀ v ∈ r.1, v.Clear r.2.heap K) (w.invoke callee pass back σ) := by
  refine hpass.bind fun (passed, τ) hτ => ?_
  refine (hτ.call_safe hw).bind fun (r, g) hleft => ?_
  refine (hback passed _ hleft.keeps.sound hleft.returns).bind fun υ hυ => ?_
  refine ⟨(hτ.keeps.trans hleft.keeps).trans hυ, ?_, fun v hv => hυ.clear (hleft.clear v hv)⟩
  have hrel := hleft.result
  generalize callee.result = result at hrel ⊢
  cases hrel with
  | some hty => exact .some (hυ.hasTy hty)
  | none => exact .none

/-- A value argument is widened to the type of its parameter. -/
lemma widened_fits {host : Host} {h : Heap} {u : Ty} {v : Value} (hby : p.byRef = false)
    (haccepts : p.ty.accepts u = true) (hv : HasTy h u v) (hclear : v.Clear h K) :
    Safe (fun v => Fits h p v ∧ v.Clear h K) (widened host p.ty v) := by
  have hfits : ∀ {v t}, p.ty.same t = true → HasTy h t v → Fits h p v := by
    intro v t ht hty
    rw [Fits, if_neg (by simp [Passing.inCell, hby])]
    exact ⟨t, ht, hty⟩
  cases hagg : p.ty.isAggregate with
  | true =>
    have hreal : p.ty.is .real = false := by
      cases hty : p.ty <;> simp_all [Ty.is, Ty.isAggregate]
    rw [widened, if_neg (by simp [hreal])]
    refine ⟨hfits ?_ hv, hclear⟩
    rcases Ty.accepts_cases haccepts with hsame | ⟨hty, -⟩
    · exact hsame
    · rw [hty] at hagg
      cases hagg
  | false =>
    have hself : p.ty.same p.ty = true := by
      cases hty : p.ty <;> simp_all [Ty.same, Ty.isAggregate]
    exact (widened_safe haccepts hagg hv).mono fun v hv =>
      ⟨hfits hself hv, Value.clear_of_scalar hv hagg K⟩

lemma give_safe {w : World} {u : Ty} {eval : Store → Eval (Value × Store)} (hby : p.byRef = false)
    (haccepts : p.ty.accepts u = true) (heval : Safe (fun r => Keeps Γ K σ r.2 ∧
      HasTy r.2.heap u r.1 ∧ r.1.Clear r.2.heap K) (eval σ)) :
    Safe (fun r => Lent Γ K p σ r.1 r.2) (w.give p.ty eval σ) :=
  heval.bind fun (_, _) ⟨hkeeps, hv, hvc⟩ =>
    (widened_fits hby haccepts hv hvc).bind fun _ ⟨hfits, hvc⟩ => .direct hkeeps hfits hvc

end

lemma Safe.and_of_ok {α : Type} {P Q : α → Prop} {x : Eval α} (h : Safe P x)
    (hQ : ∀ a, x = .ok a → Q a) : Safe (fun a => P a ∧ Q a) x := by
  match x, h with
  | .ok a, h => exact ⟨h, hQ a rfl⟩
  | .error (.trap _), _ => trivial
  | .error .timeout, _ => trivial

section

variable {w : World} {Γ : Variables} {K : Set Nat} {σ : Store}

/-- Operators give numbers and truth values. -/
lemma binary_clear {host : Host} {op : BinOp} {u v x : Value} {h : Heap}
    (hx : binary host op u v = .ok x) : x.Clear h K := by
  have hnumbers : ∀ {op}, onNumbers host op u v = .ok x → x.Clear h K := by
    intro op hx
    simp only [onNumbers, bind_eq_ok, pure_eq_ok] at hx
    obtain ⟨-, -, -, -, -, -, rfl⟩ := hx
    trivial
  unfold binary at hx
  split at hx
  · simp only [bind_eq_ok, pure_eq_ok] at hx
    obtain ⟨-, -, rfl⟩ := hx
    trivial
  · unfold arithmetic at hx
    split at hx
    · exact hnumbers hx
    · simp only [bind_eq_ok, pure_eq_ok] at hx
      obtain ⟨-, -, rfl⟩ := hx
      trivial
    · exact hnumbers hx

lemma root_clear {host : Host} (hσ : σ.Sound Γ.statics Γ.slots K) {s : Symbol} (h : s.Declared Γ)
    {loc : Location} (hloc : locate host σ (.root s) = .ok loc) :
    loc.Clear Γ.slots.length K := by
  obtain ⟨name, storage, ty⟩ := s
  cases storage with
  | static n =>
    cases hloc
    trivial
  | slot n =>
    cases hloc
    exact (List.getElem?_eq_some_iff.mp h).1
  | cell n =>
    have hn : n < Γ.slots.length := (List.getElem?_eq_some_iff.mp h).1
    simp only [locate, bind_eq_ok, pure_eq_ok] at hloc
    obtain ⟨v, hv, a, ha, rfl⟩ := hloc
    have hclear : v.Clear σ.heap K := read_clear hσ (show (Location.slot n).Clear _ K from hn) hv
    cases v with
    | ref b =>
      cases ha
      exact hclear.1
    | _ => cases ha

mutual

/-- A well-typed expression has a value of its type, unless there is a trap or no return. -/
theorem value_safe (hw : w.Sound Γ.statics) : (e : Expr) → (h : e.WellTyped Γ) → {K : Set Nat} →
    {σ : Store} → (hσ : σ.Sound Γ.statics Γ.slots K) →
    Safe (fun r => Keeps Γ K σ r.2 ∧ HasTy r.2.heap e.ty r.1 ∧ r.1.Clear r.2.heap K)
      (w.value e σ)
  | .int t i, h, K, σ, hσ => by
    rw [World.value]
    exact ⟨.refl hσ, hasTy_int h i, trivial⟩
  | .real t x, h, K, σ, hσ => by
    obtain rfl : t = .real := h
    rw [World.value]
    exact ⟨.refl hσ, trivial, trivial⟩
  | .text t s, h, K, σ, hσ => by
    obtain rfl : t = .string := h
    rw [World.value]
    exact ⟨.refl hσ, trivial, trivial⟩
  | .read t place placeTy, ⟨hplace, hty, hr⟩, K, σ, hσ => by
    subst hty
    rw [World.value]
    have hfind : Finds Γ place (w.position place) := fun _ _ => position_safe hw place hplace
    exact (hfind.reading hσ).mono fun r ⟨hkeeps, hv, hvc⟩ => ⟨hkeeps, hv.retypes hr, hvc⟩
  | .call t callee args, ⟨⟨u, hu, hr⟩, hargs⟩, K, σ, hσ => by
    rw [World.value]
    refine (invoke_safe hw (passAll_safe hw hargs hσ)
      fun passed τ hτ hpassed => storeBack_safe hw hargs hτ hpassed).bind
      fun (r, τ) ⟨hkeeps, hresult, hclear⟩ => ?_
    rw [hu] at hresult
    cases hresult with
    | some hty => exact ⟨hkeeps, HasTy.retypes hty hr, hclear _ rfl⟩
  | .unary t .neg x, ⟨hx, hnum, hr⟩, K, σ, hσ => by
    rw [World.value]
    refine (value_safe hw x hx hσ).bind fun (v, τ) ⟨hkeeps, hv, _⟩ => ?_
    dsimp only at hv
    rcases hv.number hnum with ⟨hty, y, rfl⟩ | ⟨hty, i, rfl⟩ <;> rw [hty] at hr
    · exact ⟨hkeeps, HasTy.retypes (t := .real) (v := .real (w.neg y)) trivial hr, trivial⟩
    · exact ⟨hkeeps, HasTy.retypes (hasTy_int rfl (-i)) hr, trivial⟩
  | .unary t .not x, ⟨hx, hbool, hr⟩, K, σ, hσ => by
    rw [World.value]
    refine (value_safe hw x hx hσ).bind fun (v, τ) ⟨hkeeps, hv, _⟩ => ?_
    dsimp only at hv
    rw [hbool] at hv hr
    obtain ⟨i, rfl⟩ := hv.eq_int rfl
    exact ⟨hkeeps, HasTy.retypes (hasTy_int rfl (i ^^^ 1)) hr, trivial⟩
  | .binary t op a b, ⟨ha, hb, r, hty, hr⟩, K, σ, hσ => by
    rw [World.value]
    refine (value_safe hw a ha hσ).bind fun (u, τ) ⟨hτ, hu, _⟩ => ?_
    refine (value_safe hw b hb hτ.sound).bind fun (v, υ) ⟨hυ, hv, _⟩ => ?_
    have hx : Safe (HasTy υ.heap t) (binary w.toHost op u v) :=
      binary_safe (Check.operands_of_binaryTy hty) hr (hυ.hasTy hu) hv
    exact (hx.and_of_ok fun x => binary_clear).bind fun x hx => ⟨hτ.trans hυ, hx⟩

/-- A well-typed place is found, unless there is a trap or no return. -/
theorem position_safe (hw : w.Sound Γ.statics) : (p : Place) → (h : p.WellTyped Γ) → {K : Set Nat} →
    {σ : Store} → (hσ : σ.Sound Γ.statics Γ.slots K) →
    Safe (fun r => Keeps Γ K σ r.2 ∧ r.1.Holds r.2 p.ty ∧ r.1.Clear Γ.slots.length K)
      (w.position p σ)
  | .root s, h, K, σ, hσ => by
    rw [World.position]
    exact ((root_safe hσ.wellTyped s h).and_of_ok fun loc => root_clear hσ h).bind
      fun loc hloc => ⟨.refl hσ, hloc⟩
  | .field base record name t, ⟨hbase, fields, hty, hname⟩, K, σ, hσ => by
    rw [World.position]
    have hfind : Finds Γ base (w.position base) := fun _ _ => position_safe hw base hbase
    refine (hfind.reading hσ).bind fun (v, τ) ⟨hkeeps, hv, hvc⟩ => ?_
    rw [hty] at hv
    obtain ⟨a, rfl⟩ := hv.eq_ref rfl
    rw [HasTy] at hv
    obtain ⟨fs, hfs, hfields⟩ := hv
    obtain ⟨v, hv, hvty⟩ := hfields.lookup hname
    exact ⟨hkeeps, ⟨fs, v, hfs, hv, hvty⟩, hvc.1⟩
  | .element base index low elem, ⟨hbase, hindex, hord, len, hty⟩, K, σ, hσ => by
    have hvalid := hbase.valid
    rw [World.position]
    have hfind : Finds Γ base (w.position base) := fun _ _ => position_safe hw base hbase
    refine (hfind.reading hσ).bind fun (v, τ) ⟨hkeeps, hv, hvc⟩ => ?_
    rw [hty] at hv hvalid
    obtain ⟨a, rfl⟩ := hv.eq_ref rfl
    change Safe _ (w.value index τ >>= _)
    refine (value_safe hw index hindex hkeeps.sound).bind fun (u, υ) ⟨hυ, hu, _⟩ => ?_
    have hv := hυ.hasTy hv
    rw [HasTy] at hv
    obtain ⟨es, hes, hlen, hv⟩ := hv
    dsimp only at hu hes
    obtain ⟨i, rfl⟩ := hu.eq_int hord
    obtain ⟨hlast, hlength, -⟩ := hvalid
    have hi := i.toInt_lt
    have hi' := i.le_toInt
    have hlow := low.toInt_lt
    have hlow' := low.le_toInt
    exact ⟨hkeeps.trans hυ, ⟨es, hes, hv, by omega, by omega, by omega⟩, hvc.1⟩

/-- The arguments of a call are passed, unless there is a trap or no return. -/
theorem passAll_safe (hw : w.Sound Γ.statics) : {params : List Passing} → {args : List Arg} →
    (h : ArgsWellTyped Γ params args) → {K : Set Nat} → {σ : Store} →
    (hσ : σ.Sound Γ.statics Γ.slots K) →
    Safe (fun r => Handed Γ K params σ r.1 r.2) (w.passAll params args σ)
  | [], [], _, K, σ, hσ => by
    rw [World.passAll]
    · exact .nil hσ
    all_goals simp
  | p :: params, .value e :: args, ⟨hby, he, haccepts, hargs⟩, K, σ, hσ => by
    rw [World.passAll]
    refine (give_safe hby haccepts (value_safe hw e he hσ)).bind fun (x, τ) hlent => ?_
    exact (passAll_safe hw hargs hlent.sound).bind fun (rest, υ) hrest => hlent.cons hrest
  | p :: params, .ref place t :: args, ⟨hby, hplace, hty, hsame, hargs⟩, K, σ, hσ => by
    rw [World.passAll]
    subst hty
    refine (lend_safe hw (fun _ _ => position_safe hw place hplace) hσ hplace hby hsame).bind
      fun (x, τ) hlent => ?_
    exact (passAll_safe hw hargs hlent.sound).bind fun (rest, υ) hrest => hlent.cons hrest

/-- The cells are stored back, unless there is a trap or no return. -/
theorem storeBack_safe (hw : w.Sound Γ.statics) : {params : List Passing} → {args : List Arg} →
    (h : ArgsWellTyped Γ params args) → {passed : List Passed} → {K : Set Nat} → {σ : Store} →
    (hσ : σ.Sound Γ.statics Γ.slots K) →
    (hpassed : List.Forall₂ (fun p x => Passed.Returns σ.heap p x) params passed) →
    Safe (Keeps Γ K σ) (w.storeBack passed args σ)
  | [], [], _, [], K, σ, hσ, _ => by
    rw [World.storeBack]
    · exact .refl hσ
    all_goals simp
  | p :: params, .value e :: args, ⟨_, _, _, hargs⟩, x :: passed, K, σ, hσ, .cons _ hpassed => by
    rw [World.storeBack]
    · exact storeBack_safe hw hargs hσ hpassed
    all_goals simp
  | p :: params, .ref place t :: args, ⟨_, _, _, _, hargs⟩, .direct v :: passed, K, σ, hσ,
      .cons _ hpassed => by
    rw [World.storeBack]
    · exact storeBack_safe hw hargs hσ hpassed
    all_goals simp
  | p :: params, .ref place t :: args, ⟨_, hplace, hty, hsame, hargs⟩, .cell a v :: passed, K, σ,
      hσ, .cons hx hpassed => by
    rw [World.storeBack]
    subst hty
    refine (restore_safe (fun _ _ => position_safe hw place hplace) hσ hsame hx).bind
      fun τ hkeeps => ?_
    refine (storeBack_safe hw hargs hkeeps.sound ?_).mono fun _ => hkeeps.trans
    exact hpassed.imp fun _ _ hy => hy.alike hkeeps.alike.heap

end

lemma perform_safe (hw : w.Sound Γ.statics) {callee : Signature} {args : List Arg}
    (hargs : ArgsWellTyped Γ callee.params args) (hσ : σ.Sound Γ.statics Γ.slots K) :
    Safe (fun r => Keeps Γ K σ r.2 ∧ Option.Rel (HasTy r.2.heap) callee.result r.1 ∧
      ∀ v ∈ r.1, v.Clear r.2.heap K) (w.perform callee args σ) :=
  invoke_safe hw (passAll_safe hw hargs hσ) fun _ _ hτ hpassed => storeBack_safe hw hargs hτ hpassed

end

end Run
end PascalJvm
