import Mathlib.Logic.Relation
import Mathlib.Tactic
import PascalJvm.Proofs.Generation
import PascalJvm.Proofs.ReadBlocks

/-!
# The delimiter of the scanner

All methods of a program share one scanner. A character is read with the empty delimiter, and
everything else with the standard one, so whoever narrows the delimiter has to restore it before
anything else is read: by the same method, by one that it calls, or by one that it returns to.
Control may take any way through the methods and from one to the other (`Moves`). As the code that
reads a character has no labels and no jumps, the delimiter at a position is the one that a reading
of the code from its start to this position gives (`Follows`), whatever way control has taken.
-/
namespace PascalJvm.Scanning

open Jvm Typed Emit

inductive Delimiter
  /-- there is no scanner yet -/
  | unopened
  | standard
  /-- the text that was set, if it is known -/
  | given (text : Option String)
deriving DecidableEq, Repr

structure Scanner where
  delimiter : Delimiter
  /-- the text on top of the operand stack, if the last instruction has pushed it -/
  pushed : Option String
deriving DecidableEq, Repr

namespace Scanner

def ready : Scanner := ⟨.standard, none⟩

def after (s : Scanner) : Instr → Scanner
  | .pushText t => ⟨s.delimiter, some t⟩
  | .invoke .useDelimiter => ⟨.given s.pushed, none⟩
  | .invoke .resetDelimiter | .invoke .openInput => ready
  | _ => ⟨s.delimiter, none⟩

/-- What a reading of the code from left to right makes of the scanner. -/
def through (s : Scanner) (code : List Instr) : Scanner := code.foldl after s

@[simp] theorem through_nil (s : Scanner) : s.through [] = s := rfl

@[simp] theorem through_cons (s : Scanner) (ins : Instr) (code : List Instr) :
    s.through (ins :: code) = (s.after ins).through code := rfl

@[simp] theorem through_append (s : Scanner) (code code' : List Instr) :
    s.through (code ++ code') = (s.through code).through code' :=
  List.foldl_append

variable {s : Scanner} {ins : Instr} {code : List Instr}

lemma after_of_silent (h : ins.silent = true) : (s.after ins).delimiter = s.delimiter := by
  unfold after
  split <;> first | rfl | cases h

lemma after_of_quiet (h : ins.quiet = true) (hs : s.delimiter = .standard) :
    (s.after ins).delimiter = .standard := by
  unfold after
  split <;> first | rfl | exact hs | cases h

lemma after_of_not_straight (h : ins.straight = false) : s.after ins = ⟨s.delimiter, none⟩ := by
  cases ins <;> first | rfl | cases h

lemma through_of_silent (h : Silent code) : (s.through code).delimiter = s.delimiter := by
  induction code generalizing s with
  | nil => rfl
  | cons ins code ih =>
    obtain ⟨hins, hcode⟩ := silent_cons.mp h
    rw [through_cons, ih hcode, after_of_silent hins]

lemma through_of_quiet (h : ∀ ins ∈ code, ins.quiet = true) (hs : s.delimiter = .standard) :
    (s.through code).delimiter = .standard := by
  induction code generalizing s with
  | nil => exact hs
  | cons ins code ih =>
    obtain ⟨hins, hcode⟩ := List.forall_mem_cons.mp h
    exact ih hcode (after_of_quiet hins hs)

end Scanner

open Scanner

section Blocks

/-- A store is one instruction. -/
lemma store_single (ty : Ty) (p : Place) :
    ∃ ins, store ty p = [ins] ∧ ins.silent = true ∧
      ∀ s : Scanner, s.after ins = ⟨s.delimiter, none⟩ := by
  unfold store
  split
  · split <;> exact ⟨_, rfl, rfl, fun _ => rfl⟩
  · exact ⟨_, rfl, rfl, fun _ => rfl⟩
  · exact ⟨_, rfl, rfl, fun _ => rfl⟩

/-- The delimiter before instruction `k` of the code that reads a character. -/
def charDelimiter (k : Nat) : Delimiter :=
  if 2 < k ∧ k < 11 then .given (some "") else .standard

lemma through_readChar {s : Scanner} (hs : s.delimiter = .standard) (d : Designator) {k : Nat}
    (hk : k ≤ 12) : (s.through ((readChar d).take k)).delimiter = charDelimiter k := by
  obtain ⟨ins, hstore, -, hkeep⟩ := store_single d.ty d.place
  rw [readChar, hstore]
  interval_cases k <;> simp only [List.cons_append, List.nil_append, List.take_zero,
    List.take_succ_cons, through_cons, through_nil, hkeep] <;>
    simp [after, charDelimiter, hs, ready]

lemma length_readChar (d : Designator) : (readChar d).length = 12 := by
  obtain ⟨ins, hstore, -⟩ := store_single d.ty d.place
  simp [readChar, hstore]

lemma after_reader (s : Scanner) (ty : Ty) :
    s.after (.invoke (reader ty)) = ⟨s.delimiter, none⟩ := by
  unfold reader
  split <;> rfl

lemma through_readValue {s : Scanner} (hs : s.delimiter = .standard) (d : Designator) (k : Nat) :
    (s.through ((readValue d).take k)).delimiter = .standard := by
  obtain ⟨ins, hstore, -, hkeep⟩ := store_single d.ty d.place
  have hinput : s.after (.invoke .standardInput) = ⟨s.delimiter, none⟩ := rfl
  rw [readValue, hstore]
  rcases k with _ | _ | _ | k <;> simp [hinput, after_reader, hkeep, hs]

/-- Besides the scanner's own method, the code that reads a value is quiet. -/
lemma readValue_quiet {d : Designator} {k : Nat} {ins : Instr}
    (h : (readValue d)[k]? = some ins) :
    ins.quiet = true ∨ k = 1 ∧ ins = .invoke (reader d.ty) := by
  obtain ⟨x, hstore, hsilent, -⟩ := store_single d.ty d.place
  rw [readValue, hstore] at h
  rcases k with _ | _ | _ | k
  · cases h
    exact .inl rfl
  · cases h
    exact .inr ⟨rfl, rfl⟩
  · cases h
    exact .inl (Instr.quiet_of_silent hsilent)
  · cases h

/-- The code reads into the target from this position on, with the address of its place first. -/
structure ReadsAt (code : List Instr) (d : Designator) (start : Nat) (codeAddress : List Instr) :
    Prop where
  generated : ∃ s t, address d.place s = .ok (codeAddress, t)
  code_eq : ∃ before after, code = before ++ (codeAddress ++ readInto d) ++ after ∧
    before.length = start

/-- What a position of code can be: one of quiet code, the one that reads a value, or one of the
code that reads a character. -/
inductive Spot (targets : List Designator) (code : List Instr) (i : Nat) (ins : Instr) : Prop
  | quiet (h : ins.quiet = true) (hs : (ready.through (code.take i)).delimiter = .standard)
  | value {d : Designator} {start : Nat} {codeAddress : List Instr} (hd : d ∈ targets)
      (hat : ReadsAt code d start codeAddress) (hbasic : d.ty.isBasic = true)
      (hchar : d.ty ≠ .char) (hi : i = start + codeAddress.length + 1)
      (hins : ins = .invoke (reader d.ty))
      (hs : (ready.through (code.take i)).delimiter = .standard)
  | char {d : Designator} {start k : Nat} {codeAddress : List Instr} (hd : d ∈ targets)
      (hat : ReadsAt code d start codeAddress) (hchar : d.ty = .char)
      (hi : i = start + codeAddress.length + k) (hins : (readChar d)[k]? = some ins)
      (hs : (ready.through (code.take i)).delimiter = charDelimiter k)

lemma Spot.mono {ts us : List Designator} (hsub : ts ⊆ us) {code : List Instr} {i : Nat}
    {ins : Instr} (h : Spot ts code i ins) : Spot us code i ins := by
  cases h with
  | quiet h hs => exact .quiet h hs
  | value hd hat hbasic hchar hi hins hs => exact .value (hsub hd) hat hbasic hchar hi hins hs
  | char hd hat hchar hi hins hs => exact .char (hsub hd) hat hchar hi hins hs

lemma through_block {b : Block} (hb : b.Legal) {s : Scanner} (hs : s.delimiter = .standard) :
    (s.through b.code).delimiter = .standard := by
  cases b with
  | quiet code => exact through_of_quiet hb hs
  | target d codeAddress =>
    obtain ⟨-, t, u, haddress⟩ := hb
    have hmid : (s.through codeAddress).delimiter = .standard :=
      (through_of_silent (address_silent d.place _ _ _ haddress)).trans hs
    rw [Block.code, through_append, readInto]
    split_ifs
    · have h := through_readChar hmid d le_rfl
      rwa [List.take_of_length_le (length_readChar d).le] at h
    · have h := through_readValue hmid d (readValue d).length
      rwa [List.take_length] at h

lemma through_blocks {bs : List Block} (hbs : ∀ b ∈ bs, b.Legal) {s : Scanner}
    (hs : s.delimiter = .standard) : (s.through (bs.flatMap Block.code)).delimiter = .standard := by
  induction bs generalizing s with
  | nil => exact hs
  | cons b bs ih =>
    obtain ⟨hb, hbs⟩ := List.forall_mem_cons.mp hbs
    rw [List.flatMap_cons, through_append]
    exact ih hbs (through_block hb hs)

/-- A position of the code of all blocks lies in one of them. -/
lemma exists_block {blocks : List Block} {i : Nat} {ins : Instr}
    (h : (blocks.flatMap Block.code)[i]? = some ins) :
    ∃ bs b cs k, blocks = bs ++ b :: cs ∧ i = (bs.flatMap Block.code).length + k ∧
      b.code[k]? = some ins := by
  induction blocks generalizing i with
  | nil => simp at h
  | cons b blocks ih =>
    rw [List.flatMap_cons] at h
    rcases lt_or_ge i b.code.length with hlt | hge
    · rw [List.getElem?_append_left hlt] at h
      exact ⟨[], b, blocks, i, rfl, by simp, h⟩
    · rw [List.getElem?_append_right hge] at h
      obtain ⟨bs, c, cs, k, rfl, hk, hc⟩ := ih h
      exact ⟨b :: bs, c, cs, k, rfl, by rw [List.flatMap_cons, List.length_append]; omega, hc⟩

lemma spot_of_block {b : Block} (hb : b.Legal) {before after : List Instr}
    (hs : (ready.through before).delimiter = .standard) {k : Nat} {ins : Instr}
    (hk : b.code[k]? = some ins) :
    Spot b.target?.toList (before ++ b.code ++ after) (before.length + k) ins := by
  have htake : (before ++ b.code ++ after).take (before.length + k) = before ++ b.code.take k := by
    have hlt := (List.getElem?_eq_some_iff.mp hk).1
    rw [List.append_assoc, List.take_length_add_append, List.take_append_of_le_length hlt.le]
  cases b with
  | quiet code =>
    refine .quiet (hb ins (List.mem_of_getElem? hk)) ?_
    rw [htake, through_append]
    exact through_of_quiet (fun x hx => hb x (List.mem_of_mem_take hx)) hs
  | target d codeAddress =>
    obtain ⟨hbasic, hgenerated⟩ := hb
    have hat : ReadsAt (before ++ (codeAddress ++ readInto d) ++ after) d before.length
        codeAddress :=
      ⟨hgenerated, before, after, rfl, rfl⟩
    obtain ⟨t, u, haddress⟩ := hgenerated
    have hsilent := address_silent d.place _ _ _ haddress
    have hmid : ((ready.through before).through codeAddress).delimiter = .standard :=
      (through_of_silent hsilent).trans hs
    rw [Block.code] at hk htake
    rcases lt_or_ge k codeAddress.length with hlt | hge
    · rw [List.getElem?_append_left hlt] at hk
      refine .quiet (Instr.quiet_of_silent (hsilent ins (List.mem_of_getElem? hk))) ?_
      rw [Block.code, htake, through_append, List.take_append_of_le_length hlt.le]
      exact (through_of_silent fun x hx => hsilent x (List.mem_of_mem_take hx)).trans hs
    · obtain ⟨k, rfl⟩ := Nat.exists_eq_add_of_le hge
      rw [List.getElem?_append_right hge, Nat.add_sub_cancel_left] at hk
      rw [List.take_length_add_append] at htake
      rw [Block.code]
      unfold readInto at hk
      split_ifs at hk with hchar
      · have hlt : k < 12 := length_readChar d ▸ (List.getElem?_eq_some_iff.mp hk).1
        refine .char (List.mem_singleton_self d) hat (Ty.eq_basic_of_is hchar)
          (Nat.add_assoc _ _ _).symm hk ?_
        rw [htake, readInto, if_pos hchar, through_append, through_append]
        exact through_readChar hmid d hlt.le
      · have hstandard : (ready.through ((before ++ (codeAddress ++ readInto d) ++ after).take
            (before.length + (codeAddress.length + k)))).delimiter = .standard := by
          rw [htake, readInto, if_neg hchar, through_append, through_append]
          exact through_readValue hmid d k
        rcases readValue_quiet hk with hquiet | ⟨rfl, hins⟩
        · exact .quiet hquiet hstandard
        · refine .value (List.mem_singleton_self d) hat hbasic ?_ (Nat.add_assoc _ _ _).symm hins
            hstandard
          rintro hty
          exact hchar (hty ▸ rfl)

theorem spot_of_reads {targets : List Designator} {code : List Instr} (h : ReadsInto targets code)
    {i : Nat} {ins : Instr} (hi : code[i]? = some ins) : Spot targets code i ins := by
  obtain ⟨blocks, rfl, rfl, hlegal⟩ := h
  obtain ⟨bs, b, cs, k, rfl, rfl, hk⟩ := exists_block hi
  obtain ⟨hbs, hrest⟩ := List.forall_mem_append.mp hlegal
  have hb := (List.forall_mem_cons.mp hrest).1
  have hspot : Spot b.target?.toList (bs.flatMap Block.code ++ b.code ++ cs.flatMap Block.code) _
      ins :=
    spot_of_block hb (through_blocks hbs rfl) hk
  rw [List.flatMap_append, List.flatMap_cons, ← List.append_assoc]
  refine hspot.mono fun d hd => List.mem_filterMap.mpr ⟨b, by simp, ?_⟩
  simpa using hd

end Blocks

/-- Calls, returns and the operations that take their input up to the standard delimiter. -/
def needsStandard : Instr → Bool
  | .invokeStatic _ | .newRecord _ | .ret _ => true
  | .invoke .readInt | .invoke .readFloat | .invoke .readBool | .invoke .readLine => true
  | _ => false

lemma after_of_needs {ins : Instr} (h : needsStandard ins = true) (s : Scanner) :
    s.after ins = ⟨s.delimiter, none⟩ := by
  unfold needsStandard at h
  split at h <;> first | rfl | cases h

lemma needsStandard_readChar (d : Designator) : ∀ ins ∈ readChar d, needsStandard ins = false := by
  have hstore : ∀ ins ∈ store d.ty d.place, needsStandard ins = false := by
    unfold store
    split
    · split <;> simp [needsStandard]
    · simp [needsStandard]
    · simp [needsStandard]
  rw [readChar, List.forall_mem_append, List.forall_mem_append]
  exact ⟨⟨by simp [needsStandard], hstore⟩, by simp [needsStandard]⟩

/-- The three operations on the scanner in the code that reads a character. -/
lemma readChar_operation {d : Designator} {k : Nat} {p : Primitive} (hp : p.silent = false)
    (h : (readChar d)[k]? = some (.invoke p)) :
    k = 2 ∧ p = .useDelimiter ∨ k = 5 ∧ p = .readToken ∨ k = 10 ∧ p = .resetDelimiter := by
  obtain ⟨ins, hstore, hsilent, -⟩ := store_single d.ty d.place
  have hk : k < 12 := length_readChar d ▸ (List.getElem?_eq_some_iff.mp h).1
  rw [readChar, hstore] at h
  interval_cases k <;> simp only [List.cons_append, List.nil_append, List.getElem?_cons_zero,
    List.getElem?_cons_succ, Option.some.injEq, Instr.invoke.injEq, reduceCtorEq] at h
  case «8» =>
    subst h
    exact absurd (hp.symm.trans hsilent) (by simp)
  all_goals
    subst h
    first | exact absurd hp (by decide) | simp

namespace Spot

variable {targets : List Designator} {code : List Instr} {i : Nat} {ins : Instr}

/-- The code that reads a character neither jumps nor is jumped to. -/
lemma standard_of_not_straight (h : Spot targets code i ins) (hins : ins.straight = false) :
    (ready.through (code.take i)).delimiter = .standard := by
  cases h with
  | quiet _ hs => exact hs
  | value _ _ _ _ _ _ hs => exact hs
  | char _ _ _ _ hk _ =>
    rw [straight_readChar _ ins (List.mem_of_getElem? hk)] at hins
    cases hins

lemma standard_of_needs (h : Spot targets code i ins) (hins : needsStandard ins = true) :
    (ready.through (code.take i)).delimiter = .standard := by
  cases h with
  | quiet _ hs => exact hs
  | value _ _ _ _ _ _ hs => exact hs
  | char _ _ _ _ hk _ =>
    rw [needsStandard_readChar _ ins (List.mem_of_getElem? hk)] at hins
    cases hins

end Spot

section Follows

variable {targets : List Designator} {code : List Instr} {i j : Nat} {s : Scanner} {ins : Instr}

/-- At position `i` of the code, the scanner is as a reading of the code up to there leaves it. At a
label, where control may come from elsewhere, nothing is known of the stack. -/
structure Follows (code : List Instr) (i : Nat) (s : Scanner) : Prop where
  delimiter : s.delimiter = (ready.through (code.take i)).delimiter
  pushed : (∃ l, code[i]? = some (.label l)) ∨ s.pushed = (ready.through (code.take i)).pushed

lemma through_take_succ (s : Scanner) (hi : code[i]? = some ins) :
    s.through (code.take (i + 1)) = (s.through (code.take i)).after ins := by
  rw [List.take_add_one, hi, through_append]
  rfl

lemma Follows.next (h : Follows code i s) (hi : code[i]? = some ins) :
    Follows code (i + 1) (s.after ins) := by
  have hafter : s.after ins = (ready.through (code.take i)).after ins := by
    rcases h.pushed with ⟨l, hl⟩ | hpushed
    · obtain rfl := Option.some.inj (hi.symm.trans hl)
      rw [after_of_not_straight rfl, after_of_not_straight rfl, h.delimiter]
    · congr 1
      cases s
      exact congrArg₂ Scanner.mk h.delimiter hpushed
  rw [← through_take_succ ready hi] at hafter
  exact ⟨by rw [hafter], .inr (by rw [hafter])⟩

/-- Along every edge the scanner goes on as the reading of the code says. -/
lemma Follows.edge (hreads : ReadsInto targets code) (h : Follows code i s)
    (hi : code[i]? = some ins) (he : Edge code i j) : Follows code j (s.after ins) := by
  cases he with
  | next hi' _ =>
    obtain rfl := Option.some.inj (hi.symm.trans hi')
    exact h.next hi
  | jump hi' hl hj =>
    obtain rfl := Option.some.inj (hi.symm.trans hi')
    have hjump : ins.straight = false := by
      by_contra hstraight
      rw [Instr.targets_of_straight (by simpa using hstraight)] at hl
      cases hl
    -- the delimiter is the standard one both at the jump and at the label
    have hhere := h.delimiter.trans ((spot_of_reads hreads hi).standard_of_not_straight hjump)
    have hthere := (spot_of_reads hreads hj).standard_of_not_straight rfl
    rw [after_of_not_straight hjump, hhere]
    exact ⟨hthere.symm, .inl ⟨_, hj⟩⟩

end Follows

section Moves

/-- A method that is running, and the position that control has come to in it. -/
structure Activation where
  method : Method
  position : Nat

abbrev Activation.code (a : Activation) : List Instr := a.method.code.instrs

/-- The methods that are running, the innermost first, and the scanner that they share. -/
structure Situation where
  running : List Activation
  scanner : Scanner

/-- The instruction enters the method: a call enters the routine, and a new record its
constructor. -/
inductive Enters (classes : List ClassFile) : Instr → Method → Prop
  | routine {c : ClassFile} {m : Method} {ref : MethodRef} (hc : c ∈ classes) (hm : m ∈ c.methods)
      (hrole : m.role = .routine ref) : Enters classes (.invokeStatic ref) m
  | constructor {c : ClassFile} {m : Method} {name : String} (hc : c ∈ classes)
      (hm : m ∈ c.methods) (hrecord : c.role = .record name) : Enters classes (.newRecord name) m

lemma Enters.needsStandard {classes : List ClassFile} {ins : Instr} {m : Method}
    (h : Enters classes ins m) : needsStandard ins = true := by
  cases h <;> rfl

/-- Control goes on in the method that runs, enters another one, or leaves the method. A call may
also be passed over, as if it was done. -/
inductive Moves (classes : List ClassFile) : Situation → Situation → Prop
  | on {a : Activation} {j : Nat} {rest : List Activation} {s : Scanner} {ins : Instr}
      (hi : a.code[a.position]? = some ins) (he : Edge a.code a.position j) :
      Moves classes ⟨a :: rest, s⟩ ⟨⟨a.method, j⟩ :: rest, s.after ins⟩
  | enter {a : Activation} {callee : Method} {rest : List Activation} {s : Scanner} {ins : Instr}
      (hi : a.code[a.position]? = some ins) (h : Enters classes ins callee) :
      Moves classes ⟨a :: rest, s⟩
        ⟨⟨callee, 0⟩ :: ⟨a.method, a.position + 1⟩ :: rest, s.after ins⟩
  | leave {a : Activation} {rest : List Activation} {s : Scanner} {kind : Option Kind}
      (hi : a.code[a.position]? = some (.ret kind)) :
      Moves classes ⟨a :: rest, s⟩ ⟨rest, s.after (.ret kind)⟩

/-- A method is entered from outside: the main method before there is a scanner, any other one with
the standard delimiter. -/
def entry (m : Method) : Situation :=
  ⟨[⟨m, 0⟩], match m.role with
    | .main => ⟨.unopened, none⟩
    | _ => ready⟩

/-- Control can come to this situation from the entry of a method. -/
def Reached (classes : List ClassFile) (x : Situation) : Prop :=
  ∃ c ∈ classes, ∃ m ∈ c.methods, Relation.ReflTransGen (Moves classes) (entry m) x

variable {q : Program} {classes : List ClassFile}

/-- The method is one of the classes. -/
def MethodOf (classes : List ClassFile) (m : Method) : Prop := ∃ c ∈ classes, m ∈ c.methods

/-- The scanner is as it has to be where control is, and it would be so as well in the methods that
wait, were they to go on with the standard delimiter. The main method may be about to open the
input. -/
structure Orderly (classes : List ClassFile) (x : Situation) : Prop where
  methods : ∀ a ∈ x.running, MethodOf classes a.method
  here : ∀ a ∈ x.running.head?, Follows a.code a.position x.scanner ∨
    a.position = 0 ∧ a.code[0]? = some (.invoke .openInput) ∧ x.scanner.delimiter = .unopened
  waiting : ∀ a ∈ x.running.tail, Follows a.code a.position ready

lemma Follows.start (code : List Instr) : Follows code 0 ready := ⟨rfl, .inr rfl⟩

variable (hreads : ∀ m, MethodOf classes m → ∃ targets, MethodReads q m targets)
include hreads

lemma orderly_entry {m : Method} (hm : MethodOf classes m) : Orderly classes (entry m) := by
  obtain ⟨targets, hmethod⟩ := hreads m hm
  refine ⟨by simpa [entry] using hm, fun a ha => ?_, by simp [entry]⟩
  obtain rfl : a = ⟨m, 0⟩ := by simpa [entry, eq_comm] using ha
  unfold entry
  dsimp only
  split
  next hmain => exact .inr ⟨rfl, hmethod.opens hmain, rfl⟩
  next => exact .inl (.start _)

/-- Where the standard delimiter is needed, it is there, and control goes on with it. -/
lemma Orderly.standard {a : Activation} {rest : List Activation} {s : Scanner}
    (h : Orderly classes ⟨a :: rest, s⟩) {ins : Instr} (hi : a.code[a.position]? = some ins)
    (hins : needsStandard ins = true) :
    s.delimiter = .standard ∧ Follows a.code (a.position + 1) ready := by
  obtain ⟨targets, hmethod⟩ := hreads a.method (h.methods a List.mem_cons_self)
  rcases h.here a rfl with hfollows | ⟨hzero, hopen, -⟩
  · have hs := hfollows.delimiter.trans ((spot_of_reads hmethod.reads hi).standard_of_needs hins)
    have hnext := hfollows.next hi
    rw [after_of_needs hins, hs] at hnext
    exact ⟨hs, hnext⟩
  · rw [hzero, hopen] at hi
    cases hi
    cases hins

/-- One move keeps the scanner in order. -/
theorem Orderly.move {x y : Situation} (hx : Orderly classes x) (h : Moves classes x y) :
    Orderly classes y := by
  cases h with
  | @on a j rest s ins hi he =>
    obtain ⟨hmethods, hhere, hwaiting⟩ := hx
    have ha := List.forall_mem_cons.mp hmethods
    refine ⟨List.forall_mem_cons.mpr ⟨ha.1, ha.2⟩, fun b hb => .inl ?_, hwaiting⟩
    obtain rfl := Option.some.inj hb
    rcases hhere a rfl with hfollows | ⟨hzero, hopen, -⟩
    · obtain ⟨targets, hmethod⟩ := hreads a.method ha.1
      exact hfollows.edge hmethod.reads hi he
    · rw [hzero] at hi he
      obtain rfl := Option.some.inj (hopen.symm.trans hi)
      cases he with
      | next _ _ => exact (Follows.start a.code).next hi
      | jump hi' hl _ =>
        obtain rfl := Option.some.inj (hi.symm.trans hi')
        cases hl
  | @enter a callee rest s ins hi hcallee =>
    obtain ⟨hs, hnext⟩ := hx.standard hreads hi hcallee.needsStandard
    have hready : s.after ins = ready := by rw [after_of_needs hcallee.needsStandard, hs]; rfl
    have ha := List.forall_mem_cons.mp hx.methods
    have hmethod : MethodOf classes callee := by
      cases hcallee with
      | routine hc hm _ => exact ⟨_, hc, hm⟩
      | constructor hc hm _ => exact ⟨_, hc, hm⟩
    refine ⟨List.forall_mem_cons.mpr ⟨hmethod, List.forall_mem_cons.mpr ha⟩, fun b hb => .inl ?_,
      List.forall_mem_cons.mpr ⟨hnext, hx.waiting⟩⟩
    obtain rfl := Option.some.inj hb
    rw [hready]
    exact .start _
  | @leave a rest s kind hi =>
    obtain ⟨hs, -⟩ := hx.standard hreads hi rfl
    have hready : s.after (.ret kind) = ready := by rw [after_of_needs rfl, hs]; rfl
    have ha := List.forall_mem_cons.mp hx.methods
    refine ⟨ha.2, fun b hb => .inl ?_, fun b hb => hx.waiting b (List.mem_of_mem_tail hb)⟩
    rw [hready]
    exact hx.waiting b (List.mem_of_mem_head? hb)

theorem orderly_of_reached {x : Situation} (h : Reached classes x) : Orderly classes x := by
  obtain ⟨c, hc, m, hm, hmoves⟩ := h
  induction hmoves with
  | refl => exact orderly_entry hreads ⟨c, hc, hm⟩
  | tail _ hmove ih => exact ih.move hreads hmove

end Moves

section Restores

variable {targets : List Designator} {code : List Instr}

lemma through_all (h : ReadsInto targets code) : (ready.through code).delimiter = .standard := by
  obtain ⟨blocks, rfl, -, hlegal⟩ := h
  exact through_blocks hlegal rfl

/-- Each target has its code. -/
lemma readsAt_of_mem (h : ReadsInto targets code) {d : Designator} (hd : d ∈ targets) :
    ∃ start codeAddress, ReadsAt code d start codeAddress := by
  obtain ⟨blocks, rfl, rfl, hlegal⟩ := h
  obtain ⟨b, hb, htarget⟩ := List.mem_filterMap.mp hd
  obtain ⟨bs, cs, rfl⟩ := List.append_of_mem hb
  cases b with
  | quiet code => cases htarget
  | target e codeAddress =>
    cases htarget
    refine ⟨_, codeAddress, (hlegal _ hb).2, bs.flatMap Block.code, cs.flatMap Block.code, ?_, rfl⟩
    rw [List.flatMap_append, List.flatMap_cons, ← List.append_assoc]
    rfl

/-- The delimiter is narrowed at a place of its own in the code that reads a character. -/
lemma standard_of_useDelimiter (h : ReadsInto targets code) {i : Nat}
    (hi : code[i]? = some (.invoke .useDelimiter)) :
    (ready.through (code.take i)).delimiter = .standard := by
  cases spot_of_reads h hi with
  | quiet _ hs => exact hs
  | value _ _ _ _ _ _ hs => exact hs
  | char _ _ _ _ hk hs =>
    rcases readChar_operation rfl hk with ⟨rfl, -⟩ | ⟨-, hp⟩ | ⟨-, hp⟩
    · exact hs
    · cases hp
    · cases hp

/-- The code for a character, up to where it narrows the delimiter. -/
lemma ReadsAt.narrowing {d : Designator} {start : Nat} {codeAddress : List Instr}
    (hd : d.ty = .char) (hat : ReadsAt code d start codeAddress) :
    ∃ before prelude more, code = before ++ (prelude ++ .invoke .useDelimiter :: more) ∧
      before.length = start ∧ Silent prelude ∧ prelude.length = codeAddress.length + 2 := by
  obtain ⟨⟨s, t, haddress⟩, before, after, rfl, rfl⟩ := hat
  have hsilent := address_silent d.place _ _ _ haddress
  obtain ⟨more, hmore⟩ : ∃ more, readInto d =
      [.invoke .standardInput, .pushText ""] ++ .invoke .useDelimiter :: more := by
    rw [readInto, hd]
    exact ⟨_, rfl⟩
  refine ⟨before, codeAddress ++ [.invoke .standardInput, .pushText ""], more ++ after, ?_, rfl, ?_,
    by simp⟩
  · rw [hmore]
    simp only [List.append_assoc, List.cons_append]
  · simp [hsilent, Instr.silent, Primitive.silent]

/-- Up to where the delimiter is narrowed for a target, it is the standard one. -/
lemma standard_of_readsAt (h : ReadsInto targets code) {d : Designator} {start i : Nat}
    {codeAddress : List Instr} (hd : d.ty = .char) (hat : ReadsAt code d start codeAddress)
    (hle : start ≤ i) (hi : i ≤ start + codeAddress.length + 2) :
    (ready.through (code.take i)).delimiter = .standard := by
  obtain ⟨before, prelude, more, rfl, rfl, hsilent, hlength⟩ := hat.narrowing hd
  obtain ⟨k, rfl⟩ := Nat.exists_eq_add_of_le hle
  have hwhole : (ready.through before).delimiter = .standard := by
    have huse := standard_of_useDelimiter h (i := before.length + prelude.length) (by simp)
    rwa [List.take_length_add_append, List.take_left, through_append,
      through_of_silent hsilent] at huse
  rw [List.take_length_add_append, List.take_append_of_le_length (by omega), through_append,
    through_of_silent fun x hx => hsilent x (List.mem_of_mem_take hx)]
  exact hwhole

/-- What happens to the scanner in a method whose body has these read targets, on every way that
control can take. -/
structure Restores (classes : List ClassFile) (targets : List Designator) (m : Method) : Prop where
  /-- calls, returns, and values that are read up to the standard delimiter -/
  standard {i : Nat} {rest : List Activation} {s : Scanner} {ins : Instr}
    (h : Reached classes ⟨⟨m, i⟩ :: rest, s⟩) (hi : m.code.instrs[i]? = some ins)
    (hins : needsStandard ins = true) : s.delimiter = .standard
  /-- a token is read for a string up to the standard delimiter, or for a character -/
  token {i : Nat} {rest : List Activation} {s : Scanner}
    (h : Reached classes ⟨⟨m, i⟩ :: rest, s⟩) (hi : m.code.instrs[i]? = some (.invoke .readToken)) :
    ∃ d ∈ targets, ∃ start codeAddress, ReadsAt m.code.instrs d start codeAddress ∧
      (d.ty = .string ∧ i = start + codeAddress.length + 1 ∧ s.delimiter = .standard ∨
        d.ty = .char ∧ i = start + codeAddress.length + 5 ∧ s.delimiter = .given (some ""))
  /-- only the code that reads a character sees another delimiter, from right behind the operation
  that sets it to the one that resets it -/
  narrowed {i : Nat} {rest : List Activation} {s : Scanner} {text : Option String}
    (h : Reached classes ⟨⟨m, i⟩ :: rest, s⟩) (hs : s.delimiter = .given text) :
    text = some "" ∧ ∃ d ∈ targets, d.ty = .char ∧
      ∃ start codeAddress, ReadsAt m.code.instrs d start codeAddress ∧
        start + codeAddress.length + 3 ≤ i ∧ i ≤ start + codeAddress.length + 10
  /-- each target has its code, with the address of its place first -/
  reads {d : Designator} (hd : d ∈ targets) :
    ∃ start codeAddress, ReadsAt m.code.instrs d start codeAddress
  /-- the address is evaluated with the standard delimiter -/
  address {d : Designator} {start i : Nat} {codeAddress : List Instr} {rest : List Activation}
    {s : Scanner} (hd : d.ty = .char) (hat : ReadsAt m.code.instrs d start codeAddress)
    (h : Reached classes ⟨⟨m, i⟩ :: rest, s⟩) (hle : start ≤ i)
    (hi : i ≤ start + codeAddress.length + 2) : s.delimiter = .standard

variable {q : Program} {classes : List ClassFile}

lemma eq_string_of_reader {ty : Ty} (hbasic : ty.isBasic = true) (hchar : ty ≠ .char)
    (h : reader ty = .readToken) : ty = .string := by
  cases ty with
  | basic b => cases b <;> first | rfl | exact absurd rfl hchar | cases h
  | _ => cases hbasic

theorem restores_of_reads (hreads : ∀ m, MethodOf classes m → ∃ targets, MethodReads q m targets)
    {m : Method} (hm : MethodReads q m targets) : Restores classes targets m := by
  have hhere {i : Nat} {rest : List Activation} {s : Scanner}
      (h : Reached classes ⟨⟨m, i⟩ :: rest, s⟩) :
      s.delimiter = (ready.through (m.code.instrs.take i)).delimiter ∨
        i = 0 ∧ m.code.instrs[0]? = some (.invoke .openInput) ∧ s.delimiter = .unopened :=
    ((orderly_of_reached hreads h).here _ rfl).imp_left Follows.delimiter
  refine ⟨fun h hi hins => ((orderly_of_reached hreads h).standard hreads hi hins).1, ?_, ?_,
    fun hd => readsAt_of_mem hm.reads hd, ?_⟩
  · intro i rest s h hi
    have hdelimiter : s.delimiter = (ready.through (m.code.instrs.take i)).delimiter := by
      rcases hhere h with hs | ⟨rfl, hopen, -⟩
      · exact hs
      · cases hopen.symm.trans hi
    rw [hdelimiter]
    cases spot_of_reads hm.reads hi with
    | quiet hquiet _ => cases hquiet
    | @value d start codeAddress hd hat hbasic hchar hpos hins hs =>
      have hstring := eq_string_of_reader hbasic hchar (Instr.invoke.inj hins).symm
      exact ⟨d, hd, start, codeAddress, hat, .inl ⟨hstring, hpos, hs⟩⟩
    | @char d start k codeAddress hd hat hchar hpos hk hs =>
      rcases readChar_operation rfl hk with ⟨-, hp⟩ | ⟨rfl, -⟩ | ⟨-, hp⟩
      · cases hp
      · exact ⟨d, hd, start, codeAddress, hat, .inr ⟨hchar, hpos, hs⟩⟩
      · cases hp
  · intro i rest s text h hs
    have hdelimiter : (ready.through (m.code.instrs.take i)).delimiter = .given text := by
      rcases hhere h with hthrough | ⟨-, -, hunopened⟩
      · exact hthrough.symm.trans hs
      · cases hunopened.symm.trans hs
    rcases hi : m.code.instrs[i]? with _ | ins
    · rw [List.take_of_length_le (List.getElem?_eq_none_iff.mp hi),
        through_all hm.reads] at hdelimiter
      cases hdelimiter
    · cases spot_of_reads hm.reads hi with
      | quiet _ hstandard => cases hstandard.symm.trans hdelimiter
      | value _ _ _ _ _ _ hstandard => cases hstandard.symm.trans hdelimiter
      | @char d start k codeAddress hd hat hchar hpos hk hthrough =>
        have hgiven := hthrough.symm.trans hdelimiter
        unfold charDelimiter at hgiven
        split_ifs at hgiven with hrange
        cases hgiven
        exact ⟨rfl, d, hd, hchar, start, codeAddress, hat, by omega, by omega⟩
  · intro d start i codeAddress rest s hd hat h hle hi
    rcases hhere h with hs | ⟨rfl, hopen, -⟩
    · exact hs.trans (standard_of_readsAt hm.reads hd hat hle hi)
    · -- the code of a target does not start with the opening of the input
      obtain ⟨before, prelude, more, hcode, rfl, hsilent, hlength⟩ := hat.narrowing hd
      obtain rfl := List.eq_nil_of_length_eq_zero (Nat.le_zero.mp hle)
      rw [hcode, List.nil_append, List.getElem?_append_left (by omega)] at hopen
      cases hsilent _ (List.mem_of_getElem? hopen)

end Restores

/-- The delimiter is always restored. On every way that control can take through the methods of a
compiled program, the delimiter is the standard one at every call and return, and wherever something
is read but a character; a character is read with the empty delimiter, and its address is evaluated
before the delimiter is narrowed. -/
theorem delimiter_restored {source : List Char} {p : Source.Program} {env : Environment}
    {q : Program} {policy : CasePolicy} {classes : List ClassFile}
    (hparse : Source.Program.parse source = .ok p) (henv : Environment.ofProgram p = .ok env)
    (hcheck : (Check.program env p).outcome = .ok q)
    (hclasses : (Emit.program policy q).outcome = .ok classes) :
    ∀ c ∈ classes, ∀ m ∈ c.methods, ∃ targets, TargetsOf q m.role targets ∧
      Restores classes targets m := by
  have hreads := program_reads (wellTyped_of_checked hparse henv hcheck) hclasses
  intro c hc m hm
  obtain ⟨targets, hmethod⟩ := hreads c hc m hm
  refine ⟨targets, hmethod.targetsOf, restores_of_reads ?_ hmethod⟩
  rintro m ⟨c, hc, hm⟩
  exact hreads c hc m hm

/-- A character is read into the element that a function picks, which reads a number itself. -/
def pickSource : List Char :=
  ("program p; type letters = array[3] of char; var a: letters; s: string; " ++
    "function pick(n: integer): integer; begin read(n); pick := n end; " ++
    "begin read(a[pick(1)], s) end.").toList

theorem pickSource_delimiter_restored : ∃ p env q classes,
    Source.Program.parse pickSource = .ok p ∧ Environment.ofProgram p = .ok env ∧
    (Check.program env p).outcome = .ok q ∧ (Emit.program .reject q).outcome = .ok classes ∧
    q.body.targets.map (fun d => d.ty.describe) = ["char", "string"] ∧
    ∀ c ∈ classes, ∀ m ∈ c.methods, ∃ targets, TargetsOf q m.role targets ∧
      Restores classes targets m := by
  have htypes : ((Compile.checked pickSource).outcome.toOption.bind fun q =>
      (Emit.program .reject q).outcome.toOption.map fun _ =>
        q.body.targets.map fun d => d.ty.describe) = some ["char", "string"] := by decide +kernel
  obtain ⟨q, hq, htypes⟩ := Option.bind_eq_some_iff.mp htypes
  obtain ⟨classes, hclasses, htypes⟩ := Option.map_eq_some_iff.mp htypes
  rw [toOption_eq_some] at hq hclasses
  obtain ⟨p, env, hparse, henv, hcheck⟩ := Compile.checked_ok.mp hq
  exact ⟨p, env, q, classes, hparse, henv, hcheck, hclasses, htypes,
    delimiter_restored hparse henv hcheck hclasses⟩

end PascalJvm.Scanning
