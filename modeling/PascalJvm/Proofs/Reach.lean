import Mathlib.Tactic
import PascalJvm.Proofs.Meaning

/-!
# What can be reached

A routine that is called can reach what the static variables and its arguments lead to. Objects
that nothing else refers to are hidden from it (`Shared.Hides`). Evaluation keeps the store well
typed and what is hidden as it was (`Keeps`); a new object is hidden until something refers to it.
-/
namespace PascalJvm.Run

open Jvm Typed

/-- What a body shares with the routines that it calls. -/
structure Shared where
  statics : String → Option Value
  heap : Heap

def Store.shared (σ : Store) : Shared := ⟨σ.statics, σ.heap⟩

/-- The store of a body after a call, which leaves the slots of the body alone. -/
def Store.resume (σ : Store) (g : Shared) : Store := ⟨g.statics, σ.slots, g.heap⟩

def Store.put (σ : Store) (a : Nat) (o : Object) : Store :=
  { σ with heap := Function.update σ.heap a (some o) }

lemma Store.heap_put_self (σ : Store) (a : Nat) (o : Object) : (σ.put a o).heap a = some o :=
  Function.update_self ..

lemma Store.heap_put_of_ne (σ : Store) {a b : Nat} (o : Object) (h : b ≠ a) :
    (σ.put a o).heap b = σ.heap b :=
  Function.update_of_ne h _ _

/-- What an updated map holds was there before, or is the new value. -/
lemma eq_or_eq_of_update {α β : Type} [DecidableEq α] {f : α → Option β} {a b : α} {v w : β}
    (h : Function.update f a (some w) b = some v) : f b = some v ∨ v = w := by
  by_cases hb : b = a
  · rw [hb, Function.update_self, Option.some.injEq] at h
    exact .inr h.symm
  · rw [Function.update_of_ne hb] at h
    exact .inl h

/-- The value refers to nothing that is missing and to nothing of `K`. -/
def Value.Clear (heap : Heap) (K : Set Nat) : Value → Prop
  | .ref a => a ∉ K ∧ ∃ o, heap a = some o
  | _ => True

def Object.Clear (heap : Heap) (K : Set Nat) : Object → Prop
  | .record fields => ∀ name v, fields name = some v → v.Clear heap K
  | .array es => ∀ v ∈ es, v.Clear heap K

/-- Nothing is missing, and nothing outside of `K` refers to an object of `K`. -/
structure Shared.Hides (g : Shared) (K : Set Nat) : Prop where
  present {a : Nat} (ha : a ∈ K) : ∃ o, g.heap a = some o
  statics {name : String} {v : Value} (hv : g.statics name = some v) : v.Clear g.heap K
  objects {a : Nat} {o : Object} (ha : a ∉ K) (ho : g.heap a = some o) : o.Clear g.heap K

/-- Every variable is set to a value of its type, and nothing outside of `K` leads into `K`. -/
structure Store.Sound (statics : List (String × Ty)) (slots : List ParamDesc) (K : Set Nat)
    (σ : Store) : Prop where
  wellTyped : σ.WellTyped statics slots
  shared : σ.shared.Hides K
  slots {n : Nat} (hn : n < slots.length) {v : Value} (hv : σ.slots n = some v) :
    v.Clear σ.heap K

/-- What evaluation keeps: the shape of the store, and the objects of `K`. -/
structure Keeps (Γ : Variables) (K : Set Nat) (σ τ : Store) : Prop where
  alike : σ.Alike τ
  sound : τ.Sound Γ.statics Γ.slots K
  frame {a : Nat} (ha : a ∈ K) : τ.heap a = σ.heap a

section

variable {heap heap' : Heap} {K K' : Set Nat} {v : Value} {t : Ty}

lemma Value.Clear.alike (h : v.Clear heap K) (hh : HeapsAlike heap heap') : v.Clear heap' K := by
  cases v with
  | ref a =>
    obtain ⟨hK, o, ho⟩ := h
    obtain ⟨p, hp, -⟩ := hh a o ho
    exact ⟨hK, p, hp⟩
  | _ => trivial

lemma Value.Clear.mono (h : v.Clear heap K) (hK : K' ⊆ K) : v.Clear heap K' := by
  cases v with
  | ref a => exact ⟨fun ha => h.1 (hK ha), h.2⟩
  | _ => trivial

lemma Value.clear_of_scalar (h : HasTy heap t v) (ht : t.isAggregate = false) (K : Set Nat) :
    v.Clear heap' K := by
  cases v with
  | ref a => cases t <;> simp_all [HasTy, Ty.isAggregate]
  | _ => trivial

lemma Object.Clear.imp {o : Object} (h : o.Clear heap K)
    (hv : ∀ v : Value, v.Clear heap K → v.Clear heap' K') : o.Clear heap' K' := by
  cases o with
  | record fields => exact fun name v hname => hv v (h name v hname)
  | array es => exact fun v hmem => hv v (h v hmem)

lemma clear_narrow (h : v.Clear heap K) (k : Kind) : (narrow k v).Clear heap K := by
  cases v with
  | int i => cases k <;> trivial
  | _ => cases k <;> exact h

end

namespace Keeps

variable {Γ : Variables} {K : Set Nat} {σ τ υ : Store}

lemma refl (h : σ.Sound Γ.statics Γ.slots K) : Keeps Γ K σ σ := ⟨.refl σ, h, fun _ => rfl⟩

lemma trans (h : Keeps Γ K σ τ) (h' : Keeps Γ K τ υ) : Keeps Γ K σ υ :=
  ⟨h.alike.trans h'.alike, h'.sound, fun ha => (h'.frame ha).trans (h.frame ha)⟩

lemma hasTy (h : Keeps Γ K σ τ) {t : Ty} {v : Value} (hv : HasTy σ.heap t v) : HasTy τ.heap t v :=
  hv.alike h.alike.heap t (.refl v)

lemma clear (h : Keeps Γ K σ τ) {v : Value} (hv : v.Clear σ.heap K) : v.Clear τ.heap K :=
  hv.alike h.alike.heap

end Keeps

/-- A reference stays what it is. -/
lemma Store.Alike.read_ref {σ τ : Store} (h : σ.Alike τ) {loc : Location} {a : Nat}
    (hread : σ.read loc = .ok (.ref a)) : τ.read loc = .ok (.ref a) := by
  have hkept {o : Option Value} {o' : Option Value} (ho : Store.orStuck o = .ok (.ref a))
      (halike : ∀ v, o = some v → ∃ w, o' = some w ∧ v.Alike w) :
      Store.orStuck o' = .ok (.ref a) := by
    cases o with
    | none => cases ho
    | some v =>
      cases ho
      obtain ⟨w, rfl, hw⟩ := halike _ rfl
      cases w <;> cases hw
      rfl
  cases loc with
  | static name => exact hkept hread (h.statics name)
  | slot n => exact hkept hread (h.slots n)
  | field b name =>
    simp only [Store.read] at hread ⊢
    split at hread
    next fields hb =>
      obtain ⟨o, ho, halike⟩ := h.heap b _ hb
      cases o with
      | record fields' =>
        rw [ho]
        exact hkept hread (halike name)
      | array es => exact halike.elim
    next => cases hread
  | element b i =>
    simp only [Store.read] at hread ⊢
    split at hread
    next es hb =>
      obtain ⟨o, ho, halike⟩ := h.heap b _ hb
      cases o with
      | record fields => exact halike.elim
      | array es' =>
        split_ifs at hread with hi
        have hi' : Store.inRange es' i := ⟨hi.1, halike.1 ▸ hi.2⟩
        simp only [ho, hi', if_true]
        exact hkept hread (halike.2 i.toNat)
    next => cases hread

/-- A variable stays where it is. -/
lemma Store.Alike.locate_root {σ τ : Store} (h : σ.Alike τ) {host : Host} {s : Symbol}
    {loc : Location} (hloc : locate host σ (.root s) = .ok loc) :
    locate host τ (.root s) = .ok loc := by
  obtain ⟨name, storage, ty⟩ := s
  cases storage with
  | static name | slot n => exact hloc
  | cell n =>
    simp only [locate, bind_eq_ok, pure_eq_ok] at hloc ⊢
    obtain ⟨x, hread, a, hx, rfl⟩ := hloc
    obtain rfl : x = .ref a := by
      cases x <;> cases hx
      rfl
    exact ⟨_, h.read_ref hread, a, rfl, rfl⟩

/-- The location is a variable of the body, or part of an object outside of `K`. -/
def Location.Clear (n : Nat) (K : Set Nat) : Location → Prop
  | .static _ => True
  | .slot m => m < n
  | .field a _ | .element a _ => a ∉ K

section

variable {Γ : Variables} {K : Set Nat} {σ τ : Store} {loc : Location} {t : Ty} {v : Value}

lemma read_clear (hσ : σ.Sound Γ.statics Γ.slots K) (hloc : loc.Clear Γ.slots.length K)
    (h : σ.read loc = .ok v) : v.Clear σ.heap K := by
  cases loc with
  | static name =>
    cases hname : σ.statics name with
    | none => simp [Store.read, hname, Store.orStuck] at h
    | some u =>
      simp only [Store.read, hname, Store.orStuck, Except.ok.injEq] at h
      exact h ▸ hσ.shared.statics hname
  | slot n =>
    cases hn : σ.slots n with
    | none => simp [Store.read, hn, Store.orStuck] at h
    | some u =>
      simp only [Store.read, hn, Store.orStuck, Except.ok.injEq] at h
      exact h ▸ hσ.slots hloc hn
  | field a name =>
    simp only [Store.read] at h
    split at h
    next fields hfields =>
      cases hname : fields name with
      | none => simp [hname, Store.orStuck] at h
      | some u =>
        simp only [hname, Store.orStuck, Except.ok.injEq] at h
        exact h ▸ hσ.shared.objects hloc hfields name u hname
    next => cases h
  | element a i =>
    simp only [Store.read] at h
    split at h
    next es hes =>
      split_ifs at h
      cases hi : es[i.toNat]? with
      | none => simp [hi, Store.orStuck] at h
      | some u =>
        simp only [hi, Store.orStuck, Except.ok.injEq] at h
        exact h ▸ hσ.shared.objects hloc hes u (List.mem_of_getElem? hi)
    next => cases h

lemma read_sound (hσ : σ.Sound Γ.statics Γ.slots K) (hloc : loc.Clear Γ.slots.length K)
    (hholds : loc.Holds σ t) :
    Safe (fun v => HasTy σ.heap t v ∧ v.Clear σ.heap K) (σ.read loc) := by
  rcases read_of_holds hholds with ⟨v, hv, hty⟩ | htrap
  · rw [hv]
    exact ⟨hty, read_clear hσ hloc hv⟩
  · rw [htrap]
    trivial

/-- A store is sound again if what is new in it is clear. -/
lemma Store.Sound.change {statics : List (String × Ty)} {slots : List ParamDesc} {K' : Set Nat}
    (hσ : σ.Sound statics slots K) (hτ : τ.WellTyped statics slots)
    (hpresent : ∀ a ∈ K', ∃ o, τ.heap a = some o)
    (hclear : ∀ v : Value, v.Clear σ.heap K → v.Clear τ.heap K')
    (hstatics : ∀ name v, τ.statics name = some v →
      σ.statics name = some v ∨ v.Clear τ.heap K')
    (hslots : ∀ n v, τ.slots n = some v → σ.slots n = some v ∨ v.Clear τ.heap K')
    (hobjects : ∀ a o, a ∉ K' → τ.heap a = some o →
      (a ∉ K ∧ σ.heap a = some o) ∨ o.Clear τ.heap K') : τ.Sound statics slots K' where
  wellTyped := hτ
  shared :=
    { present := fun ha => hpresent _ ha
      statics := fun hv => (hstatics _ _ hv).elim (fun h => hclear _ (hσ.shared.statics h)) id
      objects := fun ha ho => (hobjects _ _ ha ho).elim
        (fun h => (hσ.shared.objects h.1 h.2).imp hclear) id }
  slots hn _ hv := (hslots _ _ hv).elim (fun h => hclear _ (hσ.slots hn h)) id

lemma Store.Sound.present_alike {statics : List (String × Ty)} {slots : List ParamDesc}
    (hσ : σ.Sound statics slots K) (halike : σ.Alike τ) : ∀ a ∈ K, ∃ o, τ.heap a = some o := by
  intro a ha
  obtain ⟨o, ho⟩ := hσ.shared.present ha
  obtain ⟨p, hp, -⟩ := halike.heap a o ho
  exact ⟨p, hp⟩

/-- An object outside of `K` is changed. -/
lemma Keeps.of_put {a : Nat} {o : Object} (hσ : σ.Sound Γ.statics Γ.slots K) (ha : a ∉ K)
    (ho : o.Clear σ.heap K) (halike : σ.Alike (σ.put a o)) : Keeps Γ K σ (σ.put a o) where
  alike := halike
  sound := by
    have hclear : ∀ v : Value, v.Clear σ.heap K → v.Clear (σ.put a o).heap K :=
      fun v hv => hv.alike halike.heap
    refine hσ.change (hσ.wellTyped.alike halike) (hσ.present_alike halike) hclear
      (fun _ _ => .inl) (fun _ _ => .inl) ?_
    intro b p hb hp
    rcases eq_or_eq_of_update hp with hp | rfl
    · exact .inl ⟨hb, hp⟩
    · exact .inr (ho.imp hclear)
  frame hb := σ.heap_put_of_ne o fun hba => ha (hba ▸ hb)

lemma Keeps.of_write {k : Kind} (hσ : σ.Sound Γ.statics Γ.slots K)
    (hloc : loc.Clear Γ.slots.length K) (hv : v.Clear σ.heap K)
    (h : σ.write k v loc = .ok τ) (halike : σ.Alike τ) : Keeps Γ K σ τ := by
  have hnew : (narrow k v).Clear σ.heap K := clear_narrow hv k
  cases loc with
  | static name =>
    cases h
    refine ⟨halike, hσ.change (hσ.wellTyped.alike halike) (hσ.present_alike halike) (fun _ => id)
      ?_ (fun _ _ => .inl) (fun _ _ ha ho => .inl ⟨ha, ho⟩), fun _ => rfl⟩
    intro name' u hu
    rcases eq_or_eq_of_update hu with hu | rfl
    · exact .inl hu
    · exact .inr hnew
  | slot n =>
    cases h
    refine ⟨halike, hσ.change (hσ.wellTyped.alike halike) (hσ.present_alike halike) (fun _ => id)
      (fun _ _ => .inl) ?_ (fun _ _ ha ho => .inl ⟨ha, ho⟩), fun _ => rfl⟩
    intro m u hu
    rcases eq_or_eq_of_update hu with hu | rfl
    · exact .inl hu
    · exact .inr hv
  | field a name =>
    simp only [Store.write] at h
    split at h
    next fields hfields =>
      cases h
      refine .of_put hσ hloc (fun name' u hu => ?_) halike
      rcases eq_or_eq_of_update hu with hu | rfl
      · exact hσ.shared.objects hloc hfields name' u hu
      · exact hnew
    next => cases h
  | element a i =>
    simp only [Store.write] at h
    split at h
    next es hes =>
      split_ifs at h
      cases h
      refine .of_put hσ hloc (fun u hu => ?_) halike
      rcases List.mem_or_eq_of_mem_set hu with hu | rfl
      · exact hσ.shared.objects hloc hes u hu
      · exact hnew
    next => cases h

/-- Writing a scalar of the type of the place. -/
lemma write_keeps {k : Kind} (hσ : σ.Sound Γ.statics Γ.slots K)
    (hloc : loc.Clear Γ.slots.length K) (hholds : loc.Holds σ t) (ht : t.isAggregate = false)
    (hv : HasTy σ.heap t v) : Safe (Keeps Γ K σ) (σ.write k v loc) := by
  rcases write_of_holds (k := k) hholds ht hv with ⟨τ, hτ, halike⟩ | htrap
  · rw [hτ]
    exact .of_write hσ hloc (Value.clear_of_scalar hv ht K) hτ halike
  · rw [htrap]
    trivial

/-- A new object that nothing refers to yet. -/
lemma put_new {a : Nat} (new : Object) (hσ : σ.Sound Γ.statics Γ.slots K)
    (ha : σ.heap a = none) :
    σ.Alike (σ.put a new) ∧ (σ.put a new).Sound Γ.statics Γ.slots (insert a K) := by
  have hne : ∀ {b o}, σ.heap b = some o → b ≠ a := by
    rintro b o ho rfl
    rw [ha] at ho
    cases ho
  have halike : σ.Alike (σ.put a new) := by
    refine ⟨.refl _, .refl _, fun b o ho => ⟨o, ?_, .refl o⟩⟩
    rw [σ.heap_put_of_ne _ (hne ho), ho]
  refine ⟨halike, hσ.change (hσ.wellTyped.alike halike) ?_ ?_ (fun _ _ => .inl) (fun _ _ => .inl)
    ?_⟩
  · rintro b (rfl | hb)
    · exact ⟨_, σ.heap_put_self ..⟩
    · exact hσ.present_alike halike b hb
  · intro v hv
    cases v with
    | ref b =>
      obtain ⟨hb, o, ho⟩ := hv
      obtain ⟨p, hp, -⟩ := halike.heap b o ho
      refine ⟨?_, p, hp⟩
      rintro (rfl | hbK)
      · exact hne ho rfl
      · exact hb hbK
    | _ => trivial
  · intro b o hb ho
    rw [σ.heap_put_of_ne _ fun hba => hb (.inl hba)] at ho
    exact .inl ⟨fun hbK => hb (.inr hbK), ho⟩

/-- A hidden object may become anything. -/
lemma Store.Sound.put_hidden {statics : List (String × Ty)} {slots : List ParamDesc} {a : Nat}
    {o : Object} (hσ : σ.Sound statics slots K) (ha : a ∈ K)
    (hput : (σ.put a o).WellTyped statics slots) : (σ.put a o).Sound statics slots K := by
  have hheap : ∀ {b}, b ∉ K → (σ.put a o).heap b = σ.heap b := fun hb =>
    σ.heap_put_of_ne o fun hba => hb (hba ▸ ha)
  refine hσ.change hput ?_ ?_ (fun _ _ => .inl) (fun _ _ => .inl) fun b p hb hp => ?_
  · intro b hb
    by_cases hba : b = a
    · exact ⟨o, hba ▸ σ.heap_put_self a o⟩
    · rw [σ.heap_put_of_ne o hba]
      exact hσ.shared.present hb
  · intro v hv
    cases v with
    | ref b => exact ⟨hv.1, by rw [hheap hv.1]; exact hv.2⟩
    | _ => trivial
  · rw [hheap hb] at hp
    exact .inl ⟨hb, hp⟩

/-- What is hidden may be shown again if it leads to nothing hidden. -/
lemma Store.Sound.reveal {statics : List (String × Ty)} {slots : List ParamDesc} {X : Set Nat}
    (hσ : σ.Sound statics slots (X ∪ K))
    (hX : ∀ a ∈ X, ∀ o, σ.heap a = some o → o.Clear σ.heap K) : σ.Sound statics slots K := by
  refine hσ.change hσ.wellTyped (fun a ha => hσ.shared.present (.inr ha))
    (fun v hv => hv.mono Set.subset_union_right) (fun _ _ => .inl) (fun _ _ => .inl) ?_
  intro a o ha ho
  by_cases haX : a ∈ X
  · exact .inr (hX a haX o ho)
  · exact .inl ⟨fun h => h.elim haX ha, ho⟩

/-- Scalars are typed without the heap. -/
lemma HasTy.of_scalar {h h' : Heap} {u : Value} (ht : t.isAggregate = false) (hv : HasTy h t v)
    (hvu : v.Alike u) : HasTy h' t u := by
  cases t with
  | basic b => cases b <;> cases v <;> cases u <;> simp_all [HasTy, Value.Alike]
  | enum name => cases v <;> cases u <;> simp_all [HasTy, Value.Alike]
  | record => cases ht
  | array => cases ht

lemma hasTy_cell {h : Heap} {a : Nat} : HasTy h (.array 0 1 t) (.ref a) ↔
    ∃ v, h a = some (.array [v]) ∧ HasTy h t v := by
  rw [HasTy]
  constructor
  · rintro ⟨es, hes, hlen, hty⟩
    obtain ⟨v, rfl⟩ := List.length_eq_one_iff.mp hlen
    exact ⟨v, hes, hty v (List.mem_singleton_self v)⟩
  · rintro ⟨v, hv, hty⟩
    exact ⟨[v], hv, rfl, by simpa using hty⟩

lemma read_slot {n : Nat} (h : σ.slots n = some v) : σ.read (.slot n) = .ok v := by
  simp only [Store.read, h, Store.orStuck]

lemma read_cell {a : Nat} (h : σ.heap a = some (.array [v])) : σ.read (.element a 0) = .ok v := by
  simp [Store.read, h, Store.inRange, Store.orStuck]

lemma write_cell {a : Nat} {u : Value} {k : Kind} (h : σ.heap a = some (.array [u])) :
    σ.write k v (.element a 0) = .ok (σ.put a (.array [narrow k v])) := by
  simp [Store.write, h, Store.inRange, Store.put]

end

end PascalJvm.Run
