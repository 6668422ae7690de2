import Mathlib.Data.List.Forall2
import Mathlib.Tactic
import PascalJvm.Compile
import PascalJvm.Proofs.Construction
import PascalJvm.Proofs.DeclaredTypes
import PascalJvm.Proofs.Writing

/-!
# Initial values

The code of an initial value makes everything that the value is made of: arrays are filled by loops,
one inside the other, and records by their constructors. What is made has the shape of its type down
to the scalars, each of which is zero or empty (`Made`). Every object in it is new and stands at one
position only (`New`). A loop keeps its array and its counter in two slots of the supply, and what
makes an element takes slots after those, so no round disturbs the rounds before it
(`FilledUpTo.round`).
-/
namespace PascalJvm

open Jvm Typed

namespace Run

def initialScalar : Basic → Value
  | .real => .real .zero
  | .string => .text ""
  | .integer | .boolean | .char => .int 0

mutual

/-- The value is the initial one of its type. The list has the addresses of the records and arrays
in it, one for each position. -/
def Made (heap : Heap) : Ty → Value → List Nat → Prop
  | .basic b, v, as => v = initialScalar b ∧ as = []
  | .enum _, v, as => v = .int 0 ∧ as = []
  | .record _ fields, v, as => ∃ a fs rest, v = .ref a ∧ heap a = some (.record fs) ∧
      MadeFields heap fields fs rest ∧ as = a :: rest
  | .array _ len elem, v, as => ∃ a es parts, v = .ref a ∧ heap a = some (.array es) ∧
      es.length = len ∧ List.Forall₂ (fun e part => Made heap elem e part) es parts ∧
      as = a :: parts.flatten

def MadeFields (heap : Heap) :
    List (String × Ty) → (String → Option Value) → List Nat → Prop
  | [], _, as => as = []
  | (name, t) :: rest, fs, as => ∃ v first more, fs name = some v ∧ Made heap t v first ∧
      MadeFields heap rest fs more ∧ as = first ++ more

end

section

variable {heap heap' : Heap}

lemma exists_of_mem_left {α β : Type} {R : α → β → Prop} {xs : List α} {ys : List β}
    (h : List.Forall₂ R xs ys) {x : α} (hx : x ∈ xs) : ∃ y, R x y := by
  induction h with
  | nil => cases hx
  | cons hr _ ih =>
    rcases List.mem_cons.mp hx with rfl | hx
    · exact ⟨_, hr⟩
    · exact ih hx

/-- What holds of every entry that the joined list has all of. -/
lemma forall₂_of_flatten {R R' : Value → List Nat → Prop} {es : List Value}
    {parts : List (List Nat)} (h : List.Forall₂ R es parts)
    (hR : ∀ e part, (∀ a ∈ part, a ∈ parts.flatten) → R e part → R' e part) :
    List.Forall₂ R' es parts := by
  induction h with
  | nil => exact .nil
  | cons hx _ ih =>
    refine .cons (hR _ _ (fun a ha => by simp [ha]) hx) (ih fun e part hpart => ?_)
    exact hR e part fun a ha => List.mem_append_right _ (hpart a ha)

lemma forall_mem_flatten {R : Value → List Nat → Prop} {P : Nat → Prop} {es : List Value}
    {parts : List (List Nat)} (h : List.Forall₂ R es parts)
    (hR : ∀ e part, R e part → ∀ a ∈ part, P a) : ∀ a ∈ parts.flatten, P a := by
  intro a ha
  obtain ⟨part, hpart, ha⟩ := List.mem_flatten.mp ha
  obtain ⟨e, he⟩ := exists_of_mem_left h.flip hpart
  exact hR e part he a ha

mutual

/-- Whether a value is made depends on its own objects only. -/
theorem Made.frame : (t : Ty) → {v : Value} → {as : List Nat} → (h : Made heap t v as) →
    (hh : ∀ a ∈ as, heap' a = heap a) → Made heap' t v as
  | .basic b, v, as, h, _ => h
  | .enum name, v, as, h, _ => h
  | .record name fields, v, as, h, hh => by
    rw [Made] at h ⊢
    obtain ⟨a, fs, rest, rfl, ha, hfields, rfl⟩ := h
    obtain ⟨hself, hrest⟩ := List.forall_mem_cons.mp hh
    exact ⟨a, fs, rest, rfl, hself.trans ha, MadeFields.frame fields hfields hrest, rfl⟩
  | .array low len elem, v, as, h, hh => by
    rw [Made] at h ⊢
    obtain ⟨a, es, parts, rfl, ha, hlen, hparts, rfl⟩ := h
    obtain ⟨hself, hrest⟩ := List.forall_mem_cons.mp hh
    refine ⟨a, es, parts, rfl, hself.trans ha, hlen, ?_, rfl⟩
    exact forall₂_of_flatten hparts fun e part hpart he =>
      Made.frame elem he fun b hb => hrest b (hpart b hb)

theorem MadeFields.frame : (fields : List (String × Ty)) → {fs : String → Option Value} →
    {as : List Nat} → (h : MadeFields heap fields fs as) → (hh : ∀ a ∈ as, heap' a = heap a) →
    MadeFields heap' fields fs as
  | [], fs, as, h, _ => h
  | (name, t) :: rest, fs, as, h, hh => by
    rw [MadeFields] at h ⊢
    obtain ⟨v, first, more, hv, hfirst, hmore, rfl⟩ := h
    obtain ⟨hh, hh'⟩ := List.forall_mem_append.mp hh
    exact ⟨v, first, more, hv, Made.frame t hfirst hh, MadeFields.frame rest hmore hh', rfl⟩

end

mutual

theorem Made.present : (t : Ty) → {v : Value} → {as : List Nat} → (h : Made heap t v as) →
    ∀ a ∈ as, heap a ≠ none
  | .basic b, v, as, h => by
    rw [Made] at h
    simp [h.2]
  | .enum name, v, as, h => by
    rw [Made] at h
    simp [h.2]
  | .record name fields, v, as, h => by
    rw [Made] at h
    obtain ⟨a, fs, rest, rfl, ha, hfields, rfl⟩ := h
    exact List.forall_mem_cons.mpr ⟨by simp [ha], MadeFields.present fields hfields⟩
  | .array low len elem, v, as, h => by
    rw [Made] at h
    obtain ⟨a, es, parts, rfl, ha, -, hparts, rfl⟩ := h
    exact List.forall_mem_cons.mpr ⟨by simp [ha],
      forall_mem_flatten hparts fun e part he => Made.present elem he⟩

theorem MadeFields.present : (fields : List (String × Ty)) → {fs : String → Option Value} →
    {as : List Nat} → (h : MadeFields heap fields fs as) → ∀ a ∈ as, heap a ≠ none
  | [], fs, as, h => by
    rw [MadeFields] at h
    simp [h]
  | (name, t) :: rest, fs, as, h => by
    rw [MadeFields] at h
    obtain ⟨v, first, more, -, hfirst, hmore, rfl⟩ := h
    exact List.forall_mem_append.mpr ⟨Made.present t hfirst, MadeFields.present rest hmore⟩

end

mutual

theorem Made.hasTy : (t : Ty) → {v : Value} → {as : List Nat} → (h : Made heap t v as) →
    HasTy heap t v
  | .basic b, v, as, h => by
    rw [Made] at h
    rw [h.1]
    cases b <;> simp [initialScalar, HasTy]
  | .enum name, v, as, h => by
    rw [Made] at h
    rw [h.1]
    simp [HasTy]
  | .record name fields, v, as, h => by
    rw [Made] at h
    obtain ⟨a, fs, rest, rfl, ha, hfields, -⟩ := h
    rw [HasTy]
    exact ⟨fs, ha, MadeFields.haveTy fields hfields⟩
  | .array low len elem, v, as, h => by
    rw [Made] at h
    obtain ⟨a, es, parts, rfl, ha, hlen, hparts, -⟩ := h
    rw [HasTy]
    refine ⟨es, ha, hlen, fun e he => ?_⟩
    obtain ⟨part, he⟩ := exists_of_mem_left hparts he
    exact Made.hasTy elem he

theorem MadeFields.haveTy : (fields : List (String × Ty)) → {fs : String → Option Value} →
    {as : List Nat} → (h : MadeFields heap fields fs as) → FieldsHaveTy heap fields fs
  | [], _, _, _ => trivial
  | (name, t) :: rest, fs, as, h => by
    rw [MadeFields] at h
    obtain ⟨v, first, more, hv, hfirst, hmore, -⟩ := h
    exact ⟨⟨v, hv, Made.hasTy t hfirst⟩, MadeFields.haveTy rest hmore⟩

end

/-- A blank field or element that holds no reference is initial already. -/
lemma made_blank {t : Ty} (h : Kind.ofTy t ≠ .ref) : Made heap t (.blank (.ofTy t)) [] := by
  cases t with
  | basic b => cases b <;> first | exact ⟨rfl, rfl⟩ | exact absurd rfl h
  | enum name => exact ⟨rfl, rfl⟩
  | record name fields => exact absurd rfl h
  | array low len elem => exact absurd rfl h

end

/-- What making something does to the store: new objects come, and slots from `n` on are used. The
objects that were there stay as they are, besides those at the addresses in `X`. -/
structure Grown (n : Nat) (X : Set Nat) (σ τ : Store) : Prop where
  statics : τ.statics = σ.statics
  slots {m : Nat} (hm : m < n) : τ.slots m = σ.slots m
  heap {a : Nat} (ha : a ∉ X) (hσ : σ.heap a ≠ none) : τ.heap a = σ.heap a
  roomy : Roomy τ.heap

namespace Grown

variable {n n' : Nat} {X Y : Set Nat} {σ τ υ : Store}

lemma refl (hσ : Roomy σ.heap) : Grown n X σ σ := ⟨rfl, fun _ => rfl, fun _ _ => rfl, hσ⟩

lemma trans (h : Grown n X σ τ) (h' : Grown n X τ υ) : Grown n X σ υ where
  statics := h'.statics.trans h.statics
  slots hm := (h'.slots hm).trans (h.slots hm)
  heap ha hσ := (h'.heap ha (by rwa [h.heap ha hσ])).trans (h.heap ha hσ)
  roomy := h'.roomy

lemma mono (h : Grown n X σ τ) (hn : n' ≤ n) (hX : X ⊆ Y) : Grown n' Y σ τ where
  statics := h.statics
  slots hm := h.slots (hm.trans_le hn)
  heap ha := h.heap fun hX' => ha (hX hX')
  roomy := h.roomy

/-- A new object may change, and so may one at an address in `X`. -/
lemma put (h : Grown n X σ τ) {a : Nat} (ha : a ∈ X ∨ σ.heap a = none) (hnull : a ≠ null)
    (o : Object) : Grown n X σ (τ.put a o) := by
  refine ⟨h.statics, h.slots, fun {b} hbX hb => ?_, h.roomy.put hnull o⟩
  have hba : b ≠ a := by
    rintro rfl
    exact ha.elim hbX hb
  rw [τ.heap_put_of_ne o hba, h.heap hbX hb]

lemma setSlot (h : Grown n X σ τ) {m : Nat} (hm : n ≤ m) (v : Value) :
    Grown n X σ (τ.setSlot m v) :=
  ⟨h.statics, fun hj => (Function.update_of_ne (by omega) _ _).trans (h.slots hj), h.heap, h.roomy⟩

lemma heap_some (h : Grown n ∅ σ τ) {a : Nat} {o : Object} (ha : σ.heap a = some o) :
    τ.heap a = some o :=
  (h.heap (Set.notMem_empty _) (by simp [ha])).trans ha

/-- What is not there now was not there before. -/
lemma fresh (h : Grown n X σ τ) {a : Nat} (ha : a ∉ X) (hτ : τ.heap a = none) :
    σ.heap a = none := by
  by_contra hσ
  exact hσ ((h.heap ha hσ).symm.trans hτ)

end Grown

/-- The value is made of new objects, each at one position. -/
structure New (before after : Heap) (t : Ty) (v : Value) (as : List Nat) : Prop where
  made : Made after t v as
  nodup : as.Nodup
  fresh : ∀ a ∈ as, before a = none

/-- The code makes an initial value of the type and leaves it on the stack. -/
def Makes (w : World) (classes : List ClassFile) (gen : Emit.Gen (List Instr)) (t : Ty) : Prop :=
  ∀ ⦃s code u⦄, gen s = .ok (code, u) → ∀ ⦃whole pc⦄, (boundLabels whole).Nodup →
    CodeAt whole pc code → ∀ ⦃σ : Store⦄ st callers, Roomy σ.heap → ∃ v as τ,
      Thread.Reaches w classes ⟨whole, ⟨pc, st, σ⟩, callers⟩
        ⟨whole, ⟨pc + code.length, v :: st, τ⟩, callers⟩ ∧
      Grown s.slot ∅ σ τ ∧ New σ.heap τ.heap t v as

section

variable {w : World} {classes : List ClassFile} {whole : List Instr} {pc : Nat}
  {callers : List Caller} {st : List Value} {σ : Store}

lemma ne_of_fresh {heap : Heap} {a b : Nat} (hb : heap b = none) (ha : heap a ≠ none) :
    b ≠ a := by
  rintro rfl
  exact ha hb

/-- Objects that are there differ from objects that are not. -/
lemma nodup_append_of_fresh {heap : Heap} {as bs : List Nat} (has : as.Nodup) (hbs : bs.Nodup)
    (hpresent : ∀ a ∈ as, heap a ≠ none) (hfresh : ∀ b ∈ bs, heap b = none) :
    (as ++ bs).Nodup := by
  refine has.append hbs fun a ha hb => ?_
  exact ne_of_fresh (hfresh a hb) (hpresent a ha) rfl

lemma push_makes {ins : Instr} {v : Value} {t : Ty} (hs : ins.straight = true)
    (hwork : ∀ s, work w.toHost ins s = .ok ⟨v :: s.stack, s.store⟩)
    (hmade : ∀ heap, Made heap t v []) : Makes w classes (return [ins]) t := by
  intro s code u hcode whole pc hn hat σ st callers hσ
  obtain ⟨rfl, rfl⟩ := Emit.Gen.pure_ok.mp hcode
  refine ⟨v, [], σ, ?_, .refl hσ, hmade _, List.nodup_nil, List.forall_mem_nil _⟩
  refine Thread.reaches_workAll (by simpa [Straight] using hs) hat ?_
  rw [workAll_singleton, hwork]

lemma work_putField {record name : String} {t : Ty} {a : Nat} {v : Value}
    {fs : String → Option Value} (ha : σ.heap a = some (.record fs)) (ht : Kind.ofTy t = .ref) :
    workAll w.toHost [.putField (.member record name t)] ⟨v :: .ref a :: st, σ⟩ =
      .ok ⟨st, σ.put a (.record (Function.update fs name (some v)))⟩ := by
  rw [workAll_singleton, work]
  simp only [FieldRef.member, Store.write, ha, ht, narrow]
  rfl

variable (callers st) in
/-- A constructor makes the object of a field and puts it into the record at `a`. -/
lemma initField_makes {record name : String} {t : Ty} {s u : Emit.Supply} {code : List Instr}
    {a : Nat} {fs : String → Option Value} (hmakes : Makes w classes (Emit.initial t) t)
    (href : Kind.ofTy t = .ref) (hcode : Emit.initial t s = .ok (code, u)) (hs : 0 < s.slot)
    (hn : (boundLabels whole).Nodup)
    (hat : CodeAt whole pc ([.load .ref 0] ++ code ++ [.putField (.member record name t)]))
    (hσ : Roomy σ.heap) (hself : σ.slots 0 = some (.ref a)) (ha : σ.heap a = some (.record fs)) :
    ∃ v as τ, Thread.Reaches w classes ⟨whole, ⟨pc, st, σ⟩, callers⟩
        ⟨whole, ⟨pc + 1 + code.length + 1, st, τ⟩, callers⟩ ∧
      Grown 1 {a} σ τ ∧ τ.heap a = some (.record (Function.update fs name (some v))) ∧
      New σ.heap τ.heap t v as := by
  simp only [codeAt_append, codeAt_singleton, List.length_append, List.length_singleton,
    ← Nat.add_assoc] at hat
  obtain ⟨⟨hload, hvalue⟩, hput⟩ := hat
  obtain ⟨v, as, τ, hrun, hgrown, hnew⟩ := hmakes hcode hn hvalue (.ref a :: st) callers hσ
  have hτa := hgrown.heap_some ha
  have hkept : ∀ {b}, b ≠ a →
      (τ.put a (.record (Function.update fs name (some v)))).heap b = τ.heap b :=
    fun hb => τ.heap_put_of_ne _ hb
  refine ⟨v, as, τ.put a (.record (Function.update fs name (some v))), ?_, ?_,
    τ.heap_put_self .., ?_, hnew.nodup, hnew.fresh⟩
  · refine (Thread.reaches_load hload hself).trans (hrun.trans ?_)
    exact Thread.reaches_workAll (by simp [Straight, Instr.straight])
      (codeAt_singleton.mpr hput) (work_putField hτa href)
  · have hgrown' : Grown 1 {a} σ τ := hgrown.mono hs (Set.empty_subset _)
    exact hgrown'.put (.inl rfl) (hgrown.roomy.ne_null hτa) _
  · -- the record itself was there before the value was made
    exact hnew.made.frame t fun b hb => hkept (ne_of_fresh (hnew.fresh b hb) (by simp [ha]))

variable (callers st) in
/-- The fields that hold references are made one after the other. The others are initial
already. -/
lemma initFields_makes {record : String} {fields : List (String × Ty)} {s u : Emit.Supply}
    {code : List Instr} {a : Nat} {fs : String → Option Value}
    (hmakes : ∀ f ∈ fields, Makes w classes (Emit.initial f.2) f.2)
    (hnames : (fields.map Prod.fst).Nodup) (hcode : Emit.initFields record fields s = .ok (code, u))
    (hs : 0 < s.slot) (hn : (boundLabels whole).Nodup) (hat : CodeAt whole pc code)
    (hσ : Roomy σ.heap) (hself : σ.slots 0 = some (.ref a)) (ha : σ.heap a = some (.record fs))
    (hblank : ∀ f ∈ fields, fs f.1 = some (.blank (.ofTy f.2))) :
    ∃ fs' as τ, Thread.Reaches w classes ⟨whole, ⟨pc, st, σ⟩, callers⟩
        ⟨whole, ⟨pc + code.length, st, τ⟩, callers⟩ ∧
      Grown 1 {a} σ τ ∧ τ.heap a = some (.record fs') ∧
      (∀ name ∉ fields.map Prod.fst, fs' name = fs name) ∧
      MadeFields τ.heap fields fs' as ∧ as.Nodup ∧ ∀ b ∈ as, σ.heap b = none := by
  induction fields generalizing s code pc σ fs with
  | nil =>
    obtain ⟨rfl, rfl⟩ := Emit.Gen.pure_ok.mp hcode
    exact ⟨fs, [], σ, .refl, .refl hσ, ha, fun _ _ => rfl, rfl, List.nodup_nil,
      List.forall_mem_nil _⟩
  | cons field rest ih =>
    obtain ⟨name, t⟩ := field
    obtain ⟨hmake, hmakes⟩ := List.forall_mem_cons.mp hmakes
    obtain ⟨hfirst, hblank⟩ := List.forall_mem_cons.mp hblank
    rw [List.map_cons, List.nodup_cons] at hnames
    obtain ⟨hname, hnames⟩ := hnames
    simp only [Emit.initFields] at hcode
    split_ifs at hcode with href
    · simp only [Emit.Gen.bind_ok, Emit.Gen.pure_ok] at hcode
      obtain ⟨codeV, s', hcodeV, more, s'', hmore, rfl, rfl⟩ := hcode
      have hslot := (Emit.initial_spans t _ _ _ hcodeV).2
      rw [codeAt_append] at hat
      obtain ⟨v, as, τ, hrun, hgrown, hτa, hnew⟩ :=
        initField_makes callers st hmake href hcodeV hs hn hat.1 hσ hself ha
      have hblank' : ∀ f ∈ rest,
          Function.update fs name (some v) f.1 = some (.blank (.ofTy f.2)) := by
        intro f hf
        have hfname : f.1 ≠ name := fun heq => hname (List.mem_map.mpr ⟨f, hf, heq⟩)
        rw [Function.update_of_ne hfname, hblank f hf]
      obtain ⟨fs', bs, υ, hrun', hgrown', hυa, hother, hmade, hnodup, hfresh⟩ :=
        ih (s := s') hmakes hnames hmore (by omega) hat.2 hgrown.roomy
          ((hgrown.slots Nat.zero_lt_one).trans hself) hτa hblank'
      have hpresent := hnew.made.present t
      refine ⟨fs', as ++ bs, υ, ?_, hgrown.trans hgrown', hυa, fun m hm => ?_, ?_,
        nodup_append_of_fresh hnew.nodup hnodup hpresent hfresh, ?_⟩
      · simp only [List.length_append, List.length_singleton, ← Nat.add_assoc] at hrun' ⊢
        exact hrun.trans hrun'
      · obtain ⟨hm, hm'⟩ := List.ne_and_not_mem_of_not_mem_cons hm
        rw [hother m hm', Function.update_of_ne hm]
      · refine ⟨v, as, bs, ?_, ?_, hmade, rfl⟩
        · rw [hother name hname, Function.update_self]
        · refine hnew.made.frame t fun b hb => hgrown'.heap ?_ (hpresent b hb)
          exact ne_of_fresh (hnew.fresh b hb) (by simp [ha])
      · refine List.forall_mem_append.mpr ⟨hnew.fresh, fun b hb => ?_⟩
        exact hgrown.fresh (ne_of_fresh (hfresh b hb) (by simp [hτa])) (hfresh b hb)
    · obtain ⟨fs', as, τ, hrun, hgrown, hτa, hother, hmade, hnodup, hfresh⟩ :=
        ih hmakes hnames hcode hs hat hσ hself ha hblank
      refine ⟨fs', as, τ, hrun, hgrown, hτa, fun m hm => ?_, ?_, hnodup, hfresh⟩
      · exact hother m fun hmem => hm (List.mem_cons_of_mem _ hmem)
      · exact ⟨_, [], as, (hother name hname).trans hfirst, made_blank href, hmade, rfl⟩

lemma blankFields_of_mem (hw : w.Allocates) {c : ClassFile} {fields : List (String × Ty)}
    (hc : c.fields = Emit.fieldDecls fields) (hnames : (fields.map Prod.fst).Nodup)
    {f : String × Ty} (hf : f ∈ fields) :
    blankFields w c f.1 = some (.blank (.ofTy f.2)) := by
  have hfind : (Emit.fieldDecls fields).find? (fun d => d.name = f.1) = some ⟨f.1, f.2⟩ := by
    clear hc
    induction fields with
    | nil => cases hf
    | cons g rest ih =>
      rw [List.map_cons, List.nodup_cons] at hnames
      rcases List.mem_cons.mp hf with rfl | hf
      · simp [Emit.fieldDecls]
      · have hne : g.1 ≠ f.1 := fun heq => hnames.1 (heq ▸ List.mem_map_of_mem hf)
        simpa [Emit.fieldDecls, hne] using ih hnames.2 hf
  rw [blankFields, hc, hfind, Option.map_some, hw.blank]

lemma record_makes (hw : w.Allocates) {name : String} {fields : List (String × Ty)}
    (hc : Emit.Constructs classes name fields)
    (hmakes : ∀ f ∈ fields, Makes w classes (Emit.initial f.2) f.2) :
    Makes w classes (Emit.initial (.record name fields)) (.record name fields) := by
  intro s code u hcode whole pc hn hat σ st callers hσ
  simp only [Emit.initial] at hcode
  obtain ⟨rfl, rfl⟩ := Emit.Gen.pure_ok.mp hcode
  rw [codeAt_singleton] at hat
  obtain ⟨c, m, fill, u, hfind, hfields, hm, hfill, hinstrs⟩ := hc.generated
  obtain ⟨a, hnew, hnull, henter⟩ := Thread.reaches_newRecord callers st hw hat hfind hm hσ
  have hlabels : (boundLabels m.code.instrs).Nodup := by
    have hspan := (Emit.initFields_spans name fields _ _ _ hfill).1
    simpa [hinstrs, Emit.superInit, Instr.bound?] using hspan.nodup
  have hcode : CodeAt m.code.instrs 0 (Emit.superInit ++ fill ++ [.ret none]) :=
    hinstrs ▸ codeAt_self
  simp only [Emit.superInit, codeAt_append, codeAt_cons, codeAt_nil, List.length_append,
    List.length_cons, List.length_nil, Nat.zero_add, and_true] at hcode
  obtain ⟨⟨⟨hload, hinit⟩, hfields'⟩, hret⟩ := hcode
  set entry : Store := { σ.put a (.record (blankFields w c)) with
    slots := fun n => if n = 0 then some (.ref a) else none } with hentry
  have hself : entry.heap a = some (.record (blankFields w c)) := σ.heap_put_self ..
  have hother : ∀ {b}, b ≠ a → entry.heap b = σ.heap b := fun hb => σ.heap_put_of_ne _ hb
  have hroomy : Roomy entry.heap := hσ.put hnull _
  have hslot : entry.slots 0 = some (.ref a) := rfl
  obtain ⟨fs, as, τ, hrun, hgrown, hτa, -, hmade, hnodup, hfresh⟩ :=
    initFields_makes (⟨whole, pc + 1, .ref a :: st, σ.slots⟩ :: callers) [] hmakes hc.nodup hfill
      (by decide) hlabels hfields' hroomy hslot hself
      fun f hf => blankFields_of_mem hw hfields hc.nodup hf
  have hne : ∀ b ∈ as, b ≠ a := fun b hb => ne_of_fresh (hfresh b hb) (by simp [hself])
  refine ⟨.ref a, a :: as, { τ with slots := σ.slots }, ?_, ?_, ?_⟩
  · refine henter.trans ?_
    refine (Thread.reaches_load hload hslot).trans ?_
    exact (Thread.reaches_objectInit hinit).trans (hrun.trans (Thread.reaches_ret hret))
  · refine ⟨hgrown.statics, fun _ => rfl, fun {b} _ hb => ?_, hgrown.roomy⟩
    have hba := (ne_of_fresh hnew hb).symm
    exact (hgrown.heap hba (by rwa [hother hba])).trans (hother hba)
  · refine ⟨⟨a, fs, as, rfl, hτa, hmade, rfl⟩, ?_, ?_⟩
    · exact List.nodup_cons.mpr ⟨fun ha => hne a ha rfl, hnodup⟩
    · refine List.forall_mem_cons.mpr ⟨hnew, fun b hb => ?_⟩
      rw [← hother (hne b hb), hfresh b hb]

/-- After `i` rounds of the loop that fills the array at `a`, which was made in the store `σ₀`. The
loop has its array and its counter in the slots `n` and `n + 1`. -/
structure FilledUpTo (σ₀ : Store) (n a len : Nat) (t : Ty) (i : Nat) (σ : Store) : Prop where
  grown : Grown n ∅ σ₀ σ
  array : σ.slots n = some (.ref a)
  index : σ.slots (n + 1) = some (.int (Int32.ofNat i))
  fresh : σ₀.heap a = none
  filled : ∃ es parts, σ.heap a = some (.array es) ∧ es.length = len ∧
    List.Forall₂ (fun e part => Made σ.heap t e part) (es.take i) parts ∧
    (a :: parts.flatten).Nodup ∧ ∀ b ∈ parts.flatten, σ₀.heap b = none

/-- Where the loop stands: its start at `p`, the test behind it, and then one round, whose value is
made by `body`. -/
structure FillsAt (whole body : List Instr) (p n len : Nat) (top exit : Label) : Prop where
  labels : (boundLabels whole).Nodup
  start : CodeAt whole p [.store .ref n, .pushInt 0, .store .int (n + 1)]
  entry : whole[p + 3]? = some (.label top)
  test : CodeAt whole (p + 4)
    [.load .int (n + 1), .pushInt (Int32.ofNat len), .ifCompare .ge exit]
  operands : CodeAt whole (p + 7) [.load .ref n, .load .int (n + 1)]
  make : CodeAt whole (p + 9) body
  put : CodeAt whole (p + 9 + body.length) [.arrayStore .ref, .load .int (n + 1), .pushInt 1,
    .arith .add .int, .store .int (n + 1)]
  again : whole[p + 9 + body.length + 5]? = some (.goto top)
  leave : whole[p + 9 + body.length + 6]? = some (.label exit)
  result : whole[p + 9 + body.length + 7]? = some (.load .ref n)

section

variable {σ₀ τ : Store} {n a len i : Nat} {t : Ty} {body : List Instr} {top exit : Label}

/-- One more element is there. What was filled before was there when the new element was made. -/
lemma FilledUpTo.put (h : FilledUpTo σ₀ n a len t i σ) (hi : i < len) (hgrown : Grown (n + 2) ∅ σ τ)
    {v : Value} {as : List Nat} (hnew : New σ.heap τ.heap t v as) {es : List Value}
    (hes : τ.heap a = some (.array es)) :
    FilledUpTo σ₀ n a len t (i + 1)
      ((τ.put a (.array (es.set i v))).setSlot (n + 1) (.int (Int32.ofNat (i + 1)))) := by
  obtain ⟨es', parts, ha, hlen, hparts, hnodup, hfresh⟩ := h.filled
  have hold : ∀ {b}, σ.heap b ≠ none → τ.heap b = σ.heap b := hgrown.heap (Set.notMem_empty _)
  obtain rfl : es' = es := by simpa [hold, ha] using hes
  obtain ⟨hself, hparts'⟩ := List.nodup_cons.mp hnodup
  have hpresent := forall_mem_flatten hparts fun e part he => he.present t
  have hne : ∀ b ∈ as, b ≠ a := fun b hb => ne_of_fresh (hnew.fresh b hb) (by simp [ha])
  have hkept : ∀ {b}, b ≠ a →
      ((τ.put a (.array (es'.set i v))).setSlot (n + 1) (.int (Int32.ofNat (i + 1)))).heap b =
        τ.heap b := fun hb => τ.heap_put_of_ne _ hb
  have hgrown' := h.grown.trans (hgrown.mono (by omega) (Set.empty_subset _))
  refine ⟨(hgrown'.put (.inr h.fresh) (hgrown.roomy.ne_null hes) _).setSlot (by omega) _, ?_,
    Function.update_self .., h.fresh, ?_⟩
  · exact (Function.update_of_ne (by omega) _ _).trans ((hgrown.slots (by omega)).trans h.array)
  · refine ⟨es'.set i v, parts ++ [as], τ.heap_put_self .., by simpa using hlen, ?_, ?_, ?_⟩
    · have htake : (es'.set i v).take (i + 1) = es'.take i ++ [v] := by
        rw [List.take_succ_eq_append_getElem (by simpa [hlen] using hi)]
        simp [List.take_set_of_le]
      rw [htake]
      refine List.rel_append ?_ (.cons (hnew.made.frame t fun b hb => hkept (hne b hb)) .nil)
      refine forall₂_of_flatten hparts fun e part hpart he => he.frame t fun b hb => ?_
      have hba : b ≠ a := by
        rintro rfl
        exact hself (hpart b hb)
      rw [hkept hba, hold (hpresent b (hpart b hb))]
    · have hall := nodup_append_of_fresh hnodup hnew.nodup
        (List.forall_mem_cons.mpr ⟨by simp [ha], hpresent⟩) hnew.fresh
      simpa using hall
    · have hall := List.forall_mem_append.mpr
        ⟨hfresh, fun b hb => h.grown.fresh (Set.notMem_empty _) (hnew.fresh b hb)⟩
      simpa using hall

variable (w classes callers st) in
/-- The loop is left when every element is there. -/
lemma FillsAt.reaches_test (hat : FillsAt whole body pc n len top exit) (hlen : len < 2 ^ 31)
    (hi : i ≤ len) (hindex : σ.slots (n + 1) = some (.int (Int32.ofNat i))) :
    Thread.Reaches w classes ⟨whole, ⟨pc + 3, st, σ⟩, callers⟩
      ⟨whole, ⟨if i < len then pc + 7 else pc + 9 + body.length + 6, st, σ⟩, callers⟩ := by
  have htest := hat.test
  simp only [codeAt_cons, codeAt_nil, and_true] at htest
  obtain ⟨hload, hpush, hjump⟩ := htest
  have hholds : Relation.ge.holds (Int32.ofNat i) (Int32.ofNat len) = decide (len ≤ i) := by
    rw [Relation.holds, decide_eq_decide, Int32.le_iff_toInt_le, Int32.toInt_ofNat_of_lt hlen,
      Int32.toInt_ofNat_of_lt (by omega)]
    omega
  have hstep : step w.toHost whole ⟨pc + 6, .int (Int32.ofNat len) :: .int (Int32.ofNat i) :: st, σ⟩
      = .ok ⟨if i < len then pc + 7 else pc + 9 + body.length + 6, st, σ⟩ := by
    rw [step_ifCompare hat.labels hjump hat.leave, hholds]
    by_cases hil : i < len
    · simp [hil]
    · simp [hil, Nat.le_of_not_lt hil]
  refine (Thread.reaches_of_run (.single (step_label hat.entry))).trans ?_
  refine (Thread.reaches_load hload hindex).trans ?_
  exact Thread.reaches_of_run (.tail (.single (step_of_act hpush rfl rfl)) hstep)

lemma workAll_putElement {es : List Value} {v : Value} (ha : τ.heap a = some (.array es))
    (hindex : τ.slots (n + 1) = some (.int (Int32.ofNat i))) (hi : i < es.length)
    (hlen : es.length < 2 ^ 31) :
    workAll w.toHost [.arrayStore .ref, .load .int (n + 1), .pushInt 1, .arith .add .int,
        .store .int (n + 1)] ⟨v :: .int (Int32.ofNat i) :: .ref a :: st, τ⟩ =
      .ok ⟨st, (τ.put a (.array (es.set i v))).setSlot (n + 1) (.int (Int32.ofNat (i + 1)))⟩ := by
  have hint : (Int32.ofNat i).toInt = i := Int32.toInt_ofNat_of_lt (by omega)
  have hrange : Store.inRange es i := ⟨by omega, by omega⟩
  have hstore : work w.toHost (.arrayStore .ref) ⟨v :: .int (Int32.ofNat i) :: .ref a :: st, τ⟩ =
      .ok ⟨st, τ.put a (.array (es.set i v))⟩ := by
    simp only [work, hint, Store.write, ha, if_pos hrange, narrow, Int.toNat_natCast]
    rfl
  have hindex' : (τ.put a (.array (es.set i v))).slots (n + 1) = some (.int (Int32.ofNat i)) :=
    hindex
  rw [workAll_cons_ok hstore, workAll_cons_ok (World.work_load hindex' _), Int32.ofNat_add]
  rfl

variable (callers st) in
/-- One round makes one element. -/
lemma FilledUpTo.round {gen : Emit.Gen (List Instr)} (hmakes : Makes w classes gen t)
    {s u : Emit.Supply} (hbody : gen s = .ok (body, u)) (hs : s.slot = n + 2)
    (hat : FillsAt whole body pc n len top exit) (hlen : len < 2 ^ 31) (hi : i < len)
    (h : FilledUpTo σ₀ n a len t i σ) :
    ∃ τ, Thread.Reaches w classes ⟨whole, ⟨pc + 3, st, σ⟩, callers⟩
        ⟨whole, ⟨pc + 3, st, τ⟩, callers⟩ ∧
      FilledUpTo σ₀ n a len t (i + 1) τ := by
  obtain ⟨es, -, ha, hes, -⟩ := h.filled
  obtain ⟨v, as, τ, hrun, hgrown, hnew⟩ := hmakes hbody hat.labels hat.make
    (.int (Int32.ofNat i) :: .ref a :: st) callers h.grown.roomy
  rw [hs] at hgrown
  have hτa := hgrown.heap_some ha
  have hindex := (hgrown.slots (Nat.lt_succ_self _)).trans h.index
  have hload := hat.operands
  simp only [codeAt_cons, codeAt_nil, and_true] at hload
  refine ⟨_, ?_, h.put hi hgrown hnew hτa⟩
  have htest := hat.reaches_test w classes callers st hlen hi.le h.index
  rw [if_pos hi] at htest
  refine htest.trans ?_
  refine (Thread.reaches_load hload.1 h.array).trans ?_
  refine (Thread.reaches_load hload.2 h.index).trans (hrun.trans ?_)
  refine .trans (Thread.reaches_workAll (by simp [Straight, Instr.straight]) hat.put
    (workAll_putElement hτa hindex (by omega) (by omega))) ?_
  exact Thread.reaches_of_run (.single (step_goto hat.labels hat.again hat.entry))

variable (callers st) in
/-- The loop ends with every element made. -/
lemma FilledUpTo.run {gen : Emit.Gen (List Instr)} (hmakes : Makes w classes gen t)
    {s u : Emit.Supply} (hbody : gen s = .ok (body, u)) (hs : s.slot = n + 2)
    (hat : FillsAt whole body pc n len top exit) (hlen : len < 2 ^ 31) (hi : i ≤ len)
    (h : FilledUpTo σ₀ n a len t i σ) :
    ∃ τ, Thread.Reaches w classes ⟨whole, ⟨pc + 3, st, σ⟩, callers⟩
        ⟨whole, ⟨pc + 9 + body.length + 6, st, τ⟩, callers⟩ ∧
      FilledUpTo σ₀ n a len t len τ := by
  -- by the number of rounds that are left
  obtain ⟨left, rfl⟩ := Nat.exists_eq_add_of_le hi
  clear hi
  induction left generalizing i σ with
  | zero =>
    have htest := hat.reaches_test w classes callers st hlen (Nat.le_refl _) h.index
    rw [if_neg (Nat.lt_irrefl _)] at htest
    exact ⟨σ, htest, h⟩
  | succ left ih =>
    obtain ⟨μ, hround, hμ⟩ := h.round callers st hmakes hbody hs hat hlen (by omega)
    rw [show i + (left + 1) = i + 1 + left by omega] at hat hlen hμ ⊢
    obtain ⟨τ, hrest, hτ⟩ := ih hat hlen hμ
    exact ⟨τ, hround.trans hrest, hτ⟩

lemma fillsAt_of_fillArray {gen : Emit.Gen (List Instr)} {s u : Emit.Supply} {code : List Instr}
    (hcode : Emit.fillArray len gen s = .ok (code, u)) (hn : (boundLabels whole).Nodup)
    (hat : CodeAt whole pc code) :
    ∃ body s' v top exit, gen s' = .ok (body, v) ∧ s'.slot = s.slot + 2 ∧
      code.length = 9 + body.length + 8 ∧ FillsAt whole body pc s.slot len top exit := by
  simp only [Emit.fillArray, Emit.Gen.releasing_ok, Emit.Gen.bind_ok, Emit.Gen.pure_ok,
    Emit.Gen.freshSlot_ok, Emit.Gen.freshLabel_ok] at hcode
  obtain ⟨u, ⟨array, s₁, ⟨rfl, -, hs₁, -⟩, index, s₂, ⟨rfl, -, hs₂, -⟩, top, s₃, ⟨rfl, -, hs₃, -⟩,
    exit, s₄, ⟨rfl, -, hs₄, -⟩, body, v, hbody, rfl, rfl⟩, -⟩ := hcode
  refine ⟨body, s₄, v, s₂.label, s₃.label, hbody, by omega, ?_, ?_⟩
  · simp only [List.length_append, List.length_cons, List.length_nil]
  rw [hs₁] at hat
  simp only [codeAt_append, codeAt_cons, codeAt_nil, and_true, List.length_append, List.length_cons,
    List.length_nil, Nat.reduceAdd, ← Nat.add_assoc] at hat
  obtain ⟨⟨⟨harray, hzero, hindex, hentry, hload, hpush, htest, hoperands⟩, hmake⟩, hput, hload',
    hone, hadd, hstore, hagain, hleave, hresult⟩ := hat
  refine ⟨hn, ?_, hentry, ?_, ?_, hmake, ?_, hagain, hleave, hresult⟩
  all_goals simp only [codeAt_cons, codeAt_nil, and_true]
  · exact ⟨harray, hzero, hindex⟩
  · exact ⟨hload, hpush, htest⟩
  · exact hoperands
  · exact ⟨hput, hload', hone, hadd, hstore⟩

variable (callers st) in
lemma fillArray_fills {gen : Emit.Gen (List Instr)} (hmakes : Makes w classes gen t)
    {s u : Emit.Supply} {code : List Instr} (hcode : Emit.fillArray len gen s = .ok (code, u))
    (hn : (boundLabels whole).Nodup) (hat : CodeAt whole pc code) (hlen : len < 2 ^ 31)
    (hσ : Roomy σ.heap) (ha : σ.heap a = none) (hnull : a ≠ null) {es : List Value}
    (hes : es.length = len) :
    ∃ τ, Thread.Reaches w classes ⟨whole, ⟨pc, .ref a :: st, σ.put a (.array es)⟩, callers⟩
        ⟨whole, ⟨pc + code.length, .ref a :: st, τ⟩, callers⟩ ∧
      FilledUpTo σ s.slot a len t len τ := by
  obtain ⟨body, s', v, top, exit, hbody, hs, hlength, hloop⟩ := fillsAt_of_fillArray hcode hn hat
  have hstart : FilledUpTo σ s.slot a len t 0
      (((σ.put a (.array es)).setSlot s.slot (.ref a)).setSlot (s.slot + 1) (.int 0)) := by
    have hgrown : Grown s.slot ∅ σ (σ.put a (.array es)) := .put (.refl hσ) (.inr ha) hnull _
    refine ⟨(hgrown.setSlot (Nat.le_refl _) _).setSlot (by omega) _, ?_, ?_, ha, es, [],
      σ.heap_put_self .., hes, .nil, by simp, by simp⟩
    · exact (Function.update_of_ne (by omega) _ _).trans (Function.update_self ..)
    · exact Function.update_self ..
  obtain ⟨τ, hrun, hτ⟩ := hstart.run callers st hmakes hbody hs hloop hlen (Nat.zero_le _)
  refine ⟨τ, ?_, hτ⟩
  refine .trans (Thread.reaches_workAll (by simp [Straight, Instr.straight]) hloop.start rfl) ?_
  refine hrun.trans ?_
  refine .trans (Thread.reaches_of_run (.single (step_label hloop.leave))) ?_
  rw [hlength, show pc + (9 + body.length + 8) = pc + 9 + body.length + 7 + 1 by omega]
  exact Thread.reaches_load hloop.result hτ.array

/-- A filled array is new, with all that is in it. -/
lemma FilledUpTo.new (h : FilledUpTo σ₀ n a len t len σ) (low : Int32) :
    ∃ as, New σ₀.heap σ.heap (.array low len t) (.ref a) as := by
  obtain ⟨es, parts, ha, hlen, hparts, hnodup, hfresh⟩ := h.filled
  rw [List.take_of_length_le hlen.le] at hparts
  exact ⟨a :: parts.flatten, ⟨a, es, parts, rfl, ha, hlen, hparts, rfl⟩, hnodup,
    List.forall_mem_cons.mpr ⟨h.fresh, hfresh⟩⟩

lemma array_makes (hw : w.Allocates) (hlen : len < 2 ^ 31) (low : Int32)
    (hmakes : Makes w classes (Emit.initial t) t) :
    Makes w classes (Emit.initial (.array low len t)) (.array low len t) := by
  intro s code u hcode whole pc hn hat σ st callers hσ
  simp only [Emit.initial] at hcode
  split_ifs at hcode with href
  · simp only [Emit.Gen.bind_ok, Emit.Gen.pure_ok] at hcode
    obtain ⟨fill, u', hfill, rfl, rfl⟩ := hcode
    rw [codeAt_append] at hat
    obtain ⟨a, ha, hnull, hmake⟩ := Thread.reaches_newArray callers st hw hlen hat.1 hσ
    obtain ⟨τ, hrun, hτ⟩ := fillArray_fills callers st hmakes hfill hn hat.2 hlen hσ ha hnull
      List.length_replicate
    obtain ⟨as, hnew⟩ := hτ.new low
    refine ⟨.ref a, as, τ, ?_, hτ.grown, hnew⟩
    rw [List.length_append, ← Nat.add_assoc]
    exact hmake.trans hrun
  · obtain ⟨rfl, rfl⟩ := Emit.Gen.pure_ok.mp hcode
    obtain ⟨a, ha, hnull, hmake⟩ := Thread.reaches_newArray callers st hw hlen hat hσ
    refine ⟨.ref a, [a], _, hmake, .put (.refl hσ) (.inr ha) hnull _, ⟨a, _, List.replicate len [],
      rfl, σ.heap_put_self .., List.length_replicate, ?_, by simp⟩, by simp, by simpa using ha⟩
    exact List.forall₂_iff_get.mpr ⟨by simp, fun i hi _ => by simpa using made_blank href⟩

end

mutual

/-- The code of an initial value makes one. -/
theorem initial_makes (hw : w.Allocates) : (t : Ty) → t.Valid →
    t.EachRecord (Emit.Constructs classes) → Makes w classes (Emit.initial t) t
  | .basic .real, _, _ => push_makes rfl (fun _ => rfl) fun _ => ⟨rfl, rfl⟩
  | .basic .string, _, _ => push_makes rfl (fun _ => rfl) fun _ => ⟨rfl, rfl⟩
  | .basic .integer, _, _ => push_makes rfl (fun _ => rfl) fun _ => ⟨rfl, rfl⟩
  | .basic .boolean, _, _ => push_makes rfl (fun _ => rfl) fun _ => ⟨rfl, rfl⟩
  | .basic .char, _, _ => push_makes rfl (fun _ => rfl) fun _ => ⟨rfl, rfl⟩
  | .enum _, _, _ => push_makes rfl (fun _ => rfl) fun _ => ⟨rfl, rfl⟩
  | .record _ fields, hv, hc => record_makes hw hc.1 (initial_makes_fields hw fields hv hc.2)
  | .array low _ elem, hv, hc => array_makes hw hv.2.1 low (initial_makes hw elem hv.2.2 hc)

theorem initial_makes_fields (hw : w.Allocates) : (fields : List (String × Ty)) →
    Ty.FieldsValid fields → Ty.EachFieldRecord (Emit.Constructs classes) fields →
    ∀ f ∈ fields, Makes w classes (Emit.initial f.2) f.2
  | [], _, _ => List.forall_mem_nil _
  | (_, t) :: rest, hv, hc => List.forall_mem_cons.mpr
      ⟨initial_makes hw t hv.1 hc.1, initial_makes_fields hw rest hv.2 hc.2⟩

end

end

/-- The code of the initial value of a type makes a new value of the type, in which everything is
initial. Its objects are new, each of them stands at one position, and none is `null`. The rest of
the stack, the slots below those of the supply and the objects that were there stay as they
were, and the slots that the code takes are given back. -/
theorem initial_value_is_new {p : Source.Program} {env : Environment}
    (h : Environment.ofProgram p = .ok env) {t : Ty} (ht : t ∈ env.tys) :
    ∃ classes, ((Check.records env.types).mapM Emit.recordClass).outcome = .ok classes ∧
      ∀ s, ∃ code u, Emit.initial t s = .ok (code, u) ∧ u.slot = s.slot ∧
        ∀ (w : World), w.Allocates → ∀ whole pc, (boundLabels whole).Nodup →
          CodeAt whole pc code → ∀ (σ : Store) st callers, Roomy σ.heap → ∃ v as τ,
            Thread.Reaches w classes ⟨whole, ⟨pc, st, σ⟩, callers⟩
              ⟨whole, ⟨pc + code.length, v :: st, τ⟩, callers⟩ ∧
            HasTy τ.heap t v ∧ New σ.heap τ.heap t v as ∧ null ∉ as ∧ Grown s.slot ∅ σ τ := by
  have henv := Environment.coherent_of_ofProgram h
  obtain ⟨hvalid, -⟩ := Environment.ofProgram_spec h
  obtain ⟨classes, hclasses, hmake⟩ := Emit.exists_classes h
  have hrecords := Environment.forall_mem_tys henv.types henv.vars henv.params henv.results t ht
  have htv := Environment.forall_mem_tys hvalid.types hvalid.vars hvalid.params hvalid.results t ht
  have hfails : Emit.FailsOnly (fun _ => False) (Emit.initial t) := Emit.initial_failsOnly t
  refine ⟨classes, hclasses, fun s => ?_⟩
  cases hcode : Emit.initial t s with
  | error e => exact (hfails s e hcode).elim
  | ok r =>
    obtain ⟨code, u⟩ := r
    refine ⟨code, u, rfl, (Emit.initial_spans t _ _ _ hcode).2, ?_⟩
    intro w hw whole pc hn hat σ st callers hσ
    obtain ⟨v, as, τ, hrun, hgrown, hnew⟩ := initial_makes hw t htv
      (hrecords.mono fun name fields hd => hmake _ (Check.mem_records henv hd)) hcode hn hat
      st callers hσ
    refine ⟨v, as, τ, hrun, hnew.made.hasTy t, hnew, fun hnull => ?_, hgrown⟩
    exact hnew.made.present t _ hnull hgrown.roomy.null

/-- A world with room for every object. -/
noncomputable def roomyWorld : World where
  toHost := plainHost
  room heap := open Classical in
    if h : ∃ a, heap a = none ∧ a ≠ null then .ok h.choose else .error .timeout
  blank t := .blank (.ofTy t)
  call _ _ _ := .error .timeout

lemma roomyWorld_allocates : roomyWorld.Allocates where
  room {heap} h := by
    have hfree : ∃ a, heap a = none ∧ a ≠ null := by
      obtain ⟨a, ha⟩ := (h.finite.insert null).exists_notMem
      rw [Set.mem_insert_iff, not_or] at ha
      exact ⟨a, not_not.mp ha.2, ha.1⟩
    exact ⟨hfree.choose, dif_pos hfree, hfree.choose_spec⟩
  blank _ := rfl

/-- A matrix of records with an array of strings in each. -/
def gridSource : List Char :=
  ("program p; type tags = array[1..2] of string; point = record x: real; names: tags end; " ++
    "grid = array[0..1, -1..1] of point; var g: grid; begin end.").toList

def isGrid : Ty → Bool
  | .array _ 2 (.array _ 3 (.record _ [(_, .basic .real), (_, .array _ 2 (.basic .string))])) =>
      true
  | _ => false

theorem gridSource_initial_value : ∃ p env t classes, Source.Program.parse gridSource = .ok p ∧
    Environment.ofProgram p = .ok env ∧ t ∈ env.tys ∧ isGrid t = true ∧
    ((Check.records env.types).mapM Emit.recordClass).outcome = .ok classes ∧
    ∃ code u v as τ, Emit.initial t (.startingAt 1) = .ok (code, u) ∧
      Thread.Reaches roomyWorld classes ⟨code, ⟨0, [], emptyStore⟩, []⟩
        ⟨code, ⟨code.length, [v], τ⟩, []⟩ ∧
      New emptyStore.heap τ.heap t v as ∧ null ∉ as := by
  have hresult : ((Source.Program.parse gridSource).toOption.bind fun p =>
      (Environment.ofProgram p).toOption.bind fun env => env.tys.getLast?.map isGrid) =
        some true := by decide +kernel
  obtain ⟨p, hparse, hresult⟩ := Option.bind_eq_some_iff.mp hresult
  obtain ⟨env, henv, hresult⟩ := Option.bind_eq_some_iff.mp hresult
  obtain ⟨t, ht, hgrid⟩ := Option.map_eq_some_iff.mp hresult
  rw [toOption_eq_some] at hparse henv
  have hmem := List.mem_of_getLast? ht
  obtain ⟨classes, hclasses, hinitial⟩ := initial_value_is_new henv hmem
  obtain ⟨code, u, hcode, -, hmakes⟩ := hinitial (.startingAt 1)
  have hroomy : Roomy emptyStore.heap := ⟨by simp [emptyStore], rfl⟩
  obtain ⟨v, as, τ, hrun, -, hnew, hnull, -⟩ := hmakes roomyWorld roomyWorld_allocates code 0
    (Emit.initial_spans t _ _ _ hcode).1.nodup codeAt_self emptyStore [] [] hroomy
  rw [Nat.zero_add] at hrun
  exact ⟨p, env, t, classes, hparse, henv, hmem, hgrid, hclasses, code, u, v, as, τ, hcode, hrun,
    hnew, hnull⟩

end Run

end PascalJvm
