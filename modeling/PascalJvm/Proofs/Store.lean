import Mathlib.Tactic
import PascalJvm.Proofs.WellTyped
import PascalJvm.Real.Single

/-!
# Stores

What a program works on: static variables, slots, and a heap of records and arrays. A store is
well-typed for the variables of a body when each of them holds a value of its type, down to the
fields and elements of what it refers to. Writing a value of the type that a place holds keeps
the shape of the store (`Store.Alike`), and a store of the same shape is well-typed again.
-/
namespace PascalJvm.Run

open Jvm Typed

/-- A value on the stack or in a variable. Every ordinal value is an integer. -/
inductive Value
  | int (i : Int32)
  | real (x : Single)
  | text (s : String)
  | ref (address : Nat)
deriving DecidableEq, Repr

inductive Object
  | record (fields : String → Option Value)
  | array (elements : List Value)

abbrev Heap := Nat → Option Object

structure Store where
  statics : String → Option Value
  slots : Nat → Option Value
  heap : Heap

/-- Where a value is kept. The elements of an array count from zero. -/
inductive Location
  | static (name : String)
  | slot (n : Nat)
  | field (record : Nat) (name : String)
  | element (array : Nat) (index : Int)
deriving DecidableEq, Repr

inductive Trap
  | divisionByZero
  | indexOutOfBounds
deriving DecidableEq, Repr

/-- Why there is no result. -/
inductive Halt
  | trap (t : Trap)
  /-- a loop took more rounds than it was given -/
  | timeout
  /-- a value is missing or has the wrong type -/
  | stuck
deriving DecidableEq, Repr

abbrev Eval := Except Halt

/-- What is left of a value in a field or an array element of a kind: a character has 16 bits,
and a truth value one. -/
def narrow : Kind → Value → Value
  | .char, .int i => .int (i &&& 0xFFFF)
  | .bool, .int i => .int (i &&& 1)
  | _, v => v

namespace Store

def inRange (es : List Value) (i : Int) : Prop := 0 ≤ i ∧ i < es.length

instance (es : List Value) (i : Int) : Decidable (inRange es i) :=
  inferInstanceAs (Decidable (_ ∧ _))

def orStuck {α : Type} : Option α → Eval α
  | some a => .ok a
  | none => .error .stuck

def read (σ : Store) : Location → Eval Value
  | .static name => orStuck (σ.statics name)
  | .slot n => orStuck (σ.slots n)
  | .field a name =>
      match σ.heap a with
      | some (.record fields) => orStuck (fields name)
      | _ => .error .stuck
  | .element a i =>
      match σ.heap a with
      | some (.array es) =>
          if inRange es i then orStuck es[i.toNat]? else .error (.trap .indexOutOfBounds)
      | _ => .error .stuck

/-- Store a value where values of this kind are kept. A slot keeps all of its bits. -/
def write (σ : Store) (k : Kind) (v : Value) : Location → Eval Store
  | .static name => .ok { σ with statics := Function.update σ.statics name (some (narrow k v)) }
  | .slot n => .ok { σ with slots := Function.update σ.slots n (some v) }
  | .field a name =>
      match σ.heap a with
      | some (.record fields) =>
          let fields := Function.update fields name (some (narrow k v))
          .ok { σ with heap := Function.update σ.heap a (some (.record fields)) }
      | _ => .error .stuck
  | .element a i =>
      match σ.heap a with
      | some (.array es) =>
          if inRange es i then
            let es := es.set i.toNat (narrow k v)
            .ok { σ with heap := Function.update σ.heap a (some (.array es)) }
          else .error (.trap .indexOutOfBounds)
      | _ => .error .stuck

end Store

mutual

/-- The value, with all that it refers to, has the type. -/
def HasTy (heap : Heap) : Ty → Value → Prop
  | .basic .integer, .int _ | .basic .char, .int _ | .basic .boolean, .int _ => True
  | .basic .real, .real _ => True
  | .basic .string, .text _ => True
  | .enum _, .int _ => True
  | .record _ fields, .ref a => ∃ fs, heap a = some (.record fs) ∧ FieldsHaveTy heap fields fs
  | .array _ len elem, .ref a =>
      ∃ es, heap a = some (.array es) ∧ es.length = len ∧ ∀ v ∈ es, HasTy heap elem v
  | _, _ => False

def FieldsHaveTy (heap : Heap) : List (String × Ty) → (String → Option Value) → Prop
  | [], _ => True
  | (name, t) :: rest, fs => (∃ v, fs name = some v ∧ HasTy heap t v) ∧ FieldsHaveTy heap rest fs

end

/-- The variable in a slot: a value, or a cell with the value. -/
def ParamHasTy (heap : Heap) : ParamDesc → Value → Prop
  | .value t, v => HasTy heap t v
  | .cell t, v => HasTy heap (.array 0 1 t) v

/-- Every variable is set, to a value of its type. -/
structure Store.WellTyped (statics : List (String × Ty)) (slots : List ParamDesc) (σ : Store) :
    Prop where
  statics {name : String} {t : Ty} (h : statics.lookup name = some t) :
    ∃ v, σ.statics name = some v ∧ HasTy σ.heap t v
  slots {n : Nat} {d : ParamDesc} (h : slots[n]? = some d) :
    ∃ v, σ.slots n = some v ∧ ParamHasTy σ.heap d v

/-- Values of one shape: the same kind of scalar, or the same reference. -/
def Value.Alike : Value → Value → Prop
  | .int _, .int _ | .real _, .real _ | .text _, .text _ => True
  | .ref a, .ref b => a = b
  | _, _ => False

lemma Value.Alike.refl (v : Value) : v.Alike v := by
  cases v <;> trivial

lemma Value.Alike.trans {u v w : Value} (h : u.Alike v) (h' : v.Alike w) : u.Alike w := by
  cases u <;> cases v <;> cases w <;> simp_all [Value.Alike]

lemma alike_narrow (k : Kind) (v : Value) : v.Alike (narrow k v) := by
  unfold narrow
  split
  · trivial
  · trivial
  · exact .refl v

/-- Whatever the first map holds, the second one holds something alike. -/
def MapsAlike {α : Type} (f g : α → Option Value) : Prop :=
  ∀ a v, f a = some v → ∃ w, g a = some w ∧ v.Alike w

lemma MapsAlike.refl {α : Type} (f : α → Option Value) : MapsAlike f f :=
  fun _ v h => ⟨v, h, .refl v⟩

lemma MapsAlike.trans {α : Type} {f g h : α → Option Value} (hfg : MapsAlike f g)
    (hgh : MapsAlike g h) : MapsAlike f h := by
  intro a v hv
  obtain ⟨w, hw, hvw⟩ := hfg a v hv
  obtain ⟨x, hx, hwx⟩ := hgh a w hw
  exact ⟨x, hx, hvw.trans hwx⟩

lemma MapsAlike.update {α : Type} [DecidableEq α] {f : α → Option Value} {a : α} {v w : Value}
    (hv : f a = some v) (h : v.Alike w) : MapsAlike f (Function.update f a (some w)) := by
  intro b x hx
  by_cases hb : b = a
  · subst hb
    rw [hv, Option.some.injEq] at hx
    exact ⟨w, Function.update_self .., hx ▸ h⟩
  · exact ⟨x, by rw [Function.update_of_ne hb, hx], .refl x⟩

def Object.Alike : Object → Object → Prop
  | .record f, .record g => MapsAlike f g
  | .array es, .array fs =>
      es.length = fs.length ∧ MapsAlike (fun i : Nat => es[i]?) fun i => fs[i]?
  | _, _ => False

lemma Object.Alike.refl (o : Object) : o.Alike o := by
  cases o with
  | record f => exact MapsAlike.refl f
  | array es => exact ⟨rfl, MapsAlike.refl _⟩

lemma Object.Alike.trans {o p q : Object} (h : o.Alike p) (h' : p.Alike q) : o.Alike q := by
  match o, p, q, h, h' with
  | .record _, .record _, .record _, h, h' => exact MapsAlike.trans h h'
  | .array _, .array _, .array _, h, h' => exact ⟨h.1.trans h'.1, h.2.trans h'.2⟩

def HeapsAlike (h h' : Heap) : Prop := ∀ a o, h a = some o → ∃ p, h' a = some p ∧ o.Alike p

lemma HeapsAlike.update {h : Heap} {a : Nat} {o p : Object} (ho : h a = some o) (hop : o.Alike p) :
    HeapsAlike h (Function.update h a (some p)) := by
  intro b q hq
  by_cases hb : b = a
  · subst hb
    rw [ho, Option.some.injEq] at hq
    exact ⟨p, Function.update_self .., hq ▸ hop⟩
  · exact ⟨q, by rw [Function.update_of_ne hb, hq], .refl q⟩

/-- Stores of one shape. -/
structure Store.Alike (σ τ : Store) : Prop where
  statics : MapsAlike σ.statics τ.statics
  slots : MapsAlike σ.slots τ.slots
  heap : HeapsAlike σ.heap τ.heap

lemma Store.Alike.refl (σ : Store) : σ.Alike σ :=
  ⟨.refl _, .refl _, fun _ o h => ⟨o, h, .refl o⟩⟩

lemma Store.Alike.trans {σ τ υ : Store} (h : σ.Alike τ) (h' : τ.Alike υ) : σ.Alike υ where
  statics := h.statics.trans h'.statics
  slots := h.slots.trans h'.slots
  heap a o ho := by
    obtain ⟨p, hp, hop⟩ := h.heap a o ho
    obtain ⟨q, hq, hpq⟩ := h'.heap a p hp
    exact ⟨q, hq, hop.trans hpq⟩

mutual

/-- Typing does not see beyond the shape. -/
theorem HasTy.alike {h h' : Heap} (hh : HeapsAlike h h') : (t : Ty) → {v w : Value} →
    (hvw : v.Alike w) → (hv : HasTy h t v) → HasTy h' t w
  | .basic b, v, w, hvw, hv => by
    cases b <;> cases v <;> cases w <;> simp_all [HasTy, Value.Alike]
  | .enum name, v, w, hvw, hv => by
    cases v <;> cases w <;> simp_all [HasTy, Value.Alike]
  | .record name fields, .ref a, .ref b, hvw, hv => by
    obtain rfl : a = b := hvw
    rw [HasTy] at hv ⊢
    obtain ⟨fs, hfs, hty⟩ := hv
    obtain ⟨p, hp, hfp⟩ := hh a _ hfs
    cases p with
    | record gs => exact ⟨gs, hp, FieldsHaveTy.alike hh fields hfp hty⟩
    | array es => exact hfp.elim
  | .array low len elem, .ref a, .ref b, hvw, hv => by
    obtain rfl : a = b := hvw
    rw [HasTy] at hv ⊢
    obtain ⟨es, hes, hlen, hty⟩ := hv
    obtain ⟨p, hp, hep⟩ := hh a _ hes
    cases p with
    | record gs => exact hep.elim
    | array es' =>
      obtain ⟨hlength, helements⟩ := hep
      refine ⟨es', hp, hlength.symm.trans hlen, fun w hw => ?_⟩
      obtain ⟨i, hi, rfl⟩ := List.mem_iff_getElem.mp hw
      have hlt : i < es.length := by omega
      obtain ⟨w, hw, hvw⟩ := helements i es[i] (List.getElem?_eq_getElem hlt)
      obtain rfl : es'[i] = w := by simpa [List.getElem?_eq_getElem hi] using hw
      exact HasTy.alike hh elem hvw (hty _ (List.getElem_mem hlt))

theorem FieldsHaveTy.alike {h h' : Heap} (hh : HeapsAlike h h') : (fields : List (String × Ty)) →
    {f g : String → Option Value} → (hfg : MapsAlike f g) → (hf : FieldsHaveTy h fields f) →
    FieldsHaveTy h' fields g
  | [], _, _, _, _ => trivial
  | (name, t) :: rest, f, g, hfg, ⟨⟨v, hv, hty⟩, hrest⟩ => by
    obtain ⟨w, hw, hvw⟩ := hfg name v hv
    exact ⟨⟨w, hw, HasTy.alike hh t hvw hty⟩, FieldsHaveTy.alike hh rest hfg hrest⟩

end

lemma Store.WellTyped.alike {statics : List (String × Ty)} {slots : List ParamDesc} {σ τ : Store}
    (h : σ.WellTyped statics slots) (hστ : σ.Alike τ) : τ.WellTyped statics slots where
  statics hname := by
    obtain ⟨v, hv, hty⟩ := h.statics hname
    obtain ⟨w, hw, hvw⟩ := hστ.statics _ v hv
    exact ⟨w, hw, hty.alike hστ.heap _ hvw⟩
  slots {n d} hn := by
    obtain ⟨v, hv, hty⟩ := h.slots hn
    obtain ⟨w, hw, hvw⟩ := hστ.slots _ v hv
    refine ⟨w, hw, ?_⟩
    cases d with
    | value t => exact HasTy.alike hστ.heap _ hvw hty
    | cell t => exact HasTy.alike hστ.heap _ hvw hty

lemma FieldsHaveTy.lookup {heap : Heap} {fields : List (String × Ty)} {fs : String → Option Value}
    (h : FieldsHaveTy heap fields fs) {name : String} {t : Ty} (ht : fields.lookup name = some t) :
    ∃ v, fs name = some v ∧ HasTy heap t v := by
  induction fields with
  | nil => cases ht
  | cons field rest ih =>
    obtain ⟨n, u⟩ := field
    obtain ⟨hfield, hrest⟩ := h
    rw [List.lookup_cons] at ht
    split at ht
    next hn =>
      cases ht
      rw [eq_of_beq hn]
      exact hfield
    next => exact ih hrest ht

/-- What is kept at the location, or at every index of the array there, has the type. The index
is so near to the array that it does not wrap around into it. -/
def Location.Holds (σ : Store) (t : Ty) : Location → Prop
  | .static name => ∃ v, σ.statics name = some v ∧ HasTy σ.heap t v
  | .slot n => ∃ v, σ.slots n = some v ∧ HasTy σ.heap t v
  | .field a name => ∃ fs v, σ.heap a = some (.record fs) ∧ fs name = some v ∧ HasTy σ.heap t v
  | .element a i => ∃ es, σ.heap a = some (.array es) ∧ (∀ v ∈ es, HasTy σ.heap t v) ∧
      es.length < 2 ^ 31 ∧ es.length - 2 ^ 32 ≤ i ∧ i < 2 ^ 32

/-- Values of a scalar type have one shape. -/
lemma HasTy.alike_of_scalar {h h' : Heap} {t : Ty} {v w : Value} (ht : t.isAggregate = false)
    (hv : HasTy h t v) (hw : HasTy h' t w) : v.Alike w := by
  cases t with
  | basic b => cases b <;> cases v <;> cases w <;> simp_all [HasTy, Value.Alike]
  | enum name => cases v <;> cases w <;> simp_all [HasTy, Value.Alike]
  | record => cases ht
  | array => cases ht

/-- Reading gives a value of the type, or the index is out of bounds. -/
lemma read_of_holds {σ : Store} {t : Ty} {loc : Location} (h : loc.Holds σ t) :
    (∃ v, σ.read loc = .ok v ∧ HasTy σ.heap t v) ∨
      σ.read loc = .error (.trap .indexOutOfBounds) := by
  cases loc with
  | static name =>
    obtain ⟨v, hv, hty⟩ := h
    exact .inl ⟨v, by simp [Store.read, hv, Store.orStuck], hty⟩
  | slot n =>
    obtain ⟨v, hv, hty⟩ := h
    exact .inl ⟨v, by simp [Store.read, hv, Store.orStuck], hty⟩
  | field a name =>
    obtain ⟨fs, v, hfs, hv, hty⟩ := h
    exact .inl ⟨v, by simp [Store.read, hfs, hv, Store.orStuck], hty⟩
  | element a i =>
    obtain ⟨es, hes, hty, -⟩ := h
    by_cases hi : Store.inRange es i
    · have hlt : i.toNat < es.length := by
        have := hi.1
        have := hi.2
        omega
      refine .inl ⟨es[i.toNat], ?_, hty _ (List.getElem_mem hlt)⟩
      simp [Store.read, hes, hi, List.getElem?_eq_getElem hlt, Store.orStuck]
    · exact .inr (by simp [Store.read, hes, hi])

/-- Writing a value of the type keeps the shape of the store, or the index is out of bounds. -/
lemma write_of_holds {σ : Store} {t : Ty} {loc : Location} {k : Kind} {v : Value}
    (h : loc.Holds σ t) (ht : t.isAggregate = false) (hv : HasTy σ.heap t v) :
    (∃ τ, σ.write k v loc = .ok τ ∧ σ.Alike τ) ∨
      σ.write k v loc = .error (.trap .indexOutOfBounds) := by
  have hshape : ∀ {u : Value}, HasTy σ.heap t u → u.Alike (narrow k v) := fun hu =>
    (hu.alike_of_scalar ht hv).trans (alike_narrow k v)
  have hrefl := Store.Alike.refl σ
  cases loc with
  | static name =>
    obtain ⟨u, hu, hty⟩ := h
    exact .inl ⟨_, rfl, .update hu (hshape hty), hrefl.slots, hrefl.heap⟩
  | slot n =>
    obtain ⟨u, hu, hty⟩ := h
    exact .inl ⟨_, rfl, hrefl.statics, .update hu (hty.alike_of_scalar ht hv), hrefl.heap⟩
  | field a name =>
    obtain ⟨fs, u, hfs, hu, hty⟩ := h
    have halike : Object.Alike (.record fs)
        (.record (Function.update fs name (some (narrow k v)))) :=
      MapsAlike.update hu (hshape hty)
    left
    simp only [Store.write, hfs]
    exact ⟨_, rfl, hrefl.statics, hrefl.slots, .update hfs halike⟩
  | element a i =>
    obtain ⟨es, hes, hty, -⟩ := h
    by_cases hi : Store.inRange es i
    · have halike : Object.Alike (.array es) (.array (es.set i.toNat (narrow k v))) := by
        refine ⟨by simp, fun j u hu => ?_⟩
        by_cases hj : i.toNat = j
        · subst hj
          have hlt : i.toNat < es.length := (List.getElem?_eq_some_iff.mp hu).1
          exact ⟨_, by simp [hlt], hshape (hty u (List.mem_of_getElem? hu))⟩
        · exact ⟨u, by simpa [List.getElem?_set, hj] using hu, .refl u⟩
      left
      simp only [Store.write, hes, hi, if_true]
      exact ⟨_, rfl, hrefl.statics, hrefl.slots, .update hes halike⟩
    · exact .inr (by simp [Store.write, hes, hi])

end PascalJvm.Run
