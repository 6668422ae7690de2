import PascalJvm.Proofs.CheckedStatements
import PascalJvm.Proofs.ConstantCode
import PascalJvm.Proofs.ExpressionForms
import PascalJvm.Proofs.RecordTypes

/-!
# Codes of characters

A character is a UTF-16 code unit: a number of 16 bits. A program text has three ways to write one
in an expression of constants. The grammar refuses `#` with a larger number, and `chr` has no
larger value, but a quoted letter stands for its code point, whatever it is. So a constant or a
branch of a case statement can have a character past 16 bits, and an expression as well, exactly if
a letter past 16 bits is quoted there or a constant with such a value is named
(`char_constants_are_code_units_iff`).
-/
namespace PascalJvm

/-- The number is a UTF-16 code unit. -/
def CodeUnit (n : Int) : Prop := 0 ≤ n ∧ n ≤ 0xFFFF

instance (n : Int) : Decidable (CodeUnit n) := inferInstanceAs (Decidable (_ ∧ _))

lemma codeUnit_natCast {n : Nat} : CodeUnit n ↔ n ≤ 0xFFFF := by
  unfold CodeUnit
  omega

namespace Source

/-- A quoted letter whose code point has more than 16 bits, in an expression of constants. -/
def ConstExpr.WideLetter (k : ConstExpr) : Prop :=
  ∃ letter : Char, 0xFFFF < letter.toNat ∧ k = .char letter.toNat

/-- The name of a constant that is no code unit. -/
def ConstExpr.NamesWide (known : List (String × Constant)) (k : ConstExpr) : Prop :=
  ∃ n c, k = .name n ∧ known.lookup n = some (.char c) ∧ ¬ CodeUnit c

/-- A quoted letter whose code point has more than 16 bits. -/
def Expr.WideLetter (e : Expr) : Prop :=
  ∃ letter : Char, 0xFFFF < letter.toNat ∧ e = .text (String.ofList [letter])

mutual

/-- The quoted texts and the characters that are written by number in an expression. -/
def Expr.literals : Expr → List Expr
  | .char c => [.char c]
  | .text t => [.text t]
  | .call _ args => literalsOfAll args
  | .field e _ => e.literals
  | .index e i => e.literals ++ i.literals
  | .unary _ x => x.literals
  | .binary _ a b => a.literals ++ b.literals
  | .int _ | .real _ | .bool _ | .name _ => []

def literalsOfAll : List Expr → List Expr
  | [] => []
  | e :: rest => e.literals ++ literalsOfAll rest

end

lemma mem_literalsOfAll {args : List Expr} {l : Expr} (h : l ∈ literalsOfAll args) :
    ∃ e ∈ args, l ∈ e.literals := by
  induction args with
  | nil => cases h
  | cons e rest ih =>
    rcases List.mem_append.mp h with h | h
    · exact ⟨e, List.mem_cons_self, h⟩
    · obtain ⟨e', he', hl⟩ := ih h
      exact ⟨e', List.mem_cons_of_mem _ he', hl⟩

/-- A character that is written by number has a code of 16 bits, and everything else that is
listed is a quoted text. -/
def Expr.Coded (l : Expr) : Prop := (∃ c, c ≤ 0xFFFF ∧ l = .char c) ∨ ∃ t, l = .text t

lemma coded_rules : ExpressionRules fun e => ∀ l ∈ e.literals, l.Coded where
  int _ := List.forall_mem_nil _
  real _ := List.forall_mem_nil _
  bool _ := List.forall_mem_nil _
  name _ := List.forall_mem_nil _
  char c hc := List.forall_mem_singleton.mpr (.inl ⟨c, hc, rfl⟩)
  text t := List.forall_mem_singleton.mpr (.inr ⟨t, rfl⟩)
  call f args hargs l hl := by
    obtain ⟨e, he, hl⟩ := mem_literalsOfAll hl
    exact hargs e he l hl
  field _ _ he := he
  index _ _ he hi := List.forall_mem_append.mpr ⟨he, hi⟩
  unary _ _ hx := hx
  binary _ _ _ ha hb := List.forall_mem_append.mpr ⟨ha, hb⟩

/-- Of the characters in an expression of constants, only a quoted letter can be past 16 bits. -/
lemma code_rules : ConstRules fun k => ∀ c, k = .char c → ¬ k.WideLetter → c ≤ 0xFFFF where
  int _ := nofun
  real _ := nofun
  bool _ := nofun
  text _ := nofun
  name _ := nofun
  call _ _ _ := nofun
  unary _ _ _ := nofun
  binary _ _ _ _ _ := nofun
  code c hc := by
    rintro _ ⟨⟩ -
    exact hc
  letter a := by
    rintro _ ⟨⟩ hnarrow
    exact not_lt.mp fun hlt => hnarrow ⟨a, hlt, rfl⟩

lemma Stmt.Written.coded {x : Stmt} (h : x.Written) {e : Expr} (he : e ∈ x.exprs) {l : Expr}
    (hl : l ∈ e.literals) : l.Coded := by
  rcases h.1 e he with hproduced | ⟨a, hproduced, rfl⟩
  · exact hproduced.holds coded_rules.expression_yields l hl
  · exact hproduced.holds coded_rules.access_yields l hl

lemma Program.written_of_parse {text : List Char} {p : Program} (h : Program.parse text = .ok p)
    {x : Stmt} (hx : p.Has x) : x.Written := by
  obtain ⟨b, hb, hwithin⟩ := hx
  have hparsed := Block.each_iff_blocks.mp (Program.parsed_of_parse h) b hb
  obtain ⟨-, hwritten⟩ := written_rules.of_body hparsed.2
  exact hwritten x hwithin

end Source

namespace Constant

lemma code_le_of_apply {f : String} {a : Constant} {c : Nat} (h : apply f a = .ok (.char c)) :
    c ≤ 0xFFFF := by
  unfold apply at h
  split at h
  next =>
    obtain ⟨i, -, hi⟩ := map_eq_ok.mp h
    cases hi
  next =>
    split at h
    next i =>
      split_ifs at h with hrange
      simp only [Bool.and_eq_true, decide_eq_true_eq] at hrange
      cases h
      omega
    next => cases h
  next => cases h

lemma unary_ne_char {op : UnOp} {a : Constant} {c : Nat} : unary op a ≠ .ok (.char c) := by
  intro h
  unfold unary at h
  split at h
  next =>
    obtain ⟨i, -, hi⟩ := map_eq_ok.mp h
    cases hi
  all_goals cases h

lemma binary_ne_char {op : BinOp} {a b : Constant} {c : Nat} : binary op a b ≠ .ok (.char c) := by
  intro h
  unfold binary at h
  split at h
  next =>
    obtain ⟨i, -, hi⟩ := map_eq_ok.mp h
    cases hi
  next =>
    unfold mixedBinary at h
    split at h
    next =>
      simp only [realBinary, bind_eq_ok, pure_eq_ok] at h
      obtain ⟨x, -, y, -, hxy⟩ := h
      cases hxy
    next =>
      simp only [compareBinary, bind_eq_ok, pure_eq_ok] at h
      obtain ⟨x, -, y, -, hxy⟩ := h
      cases hxy
    next => cases h
    next => cases h

/-- Where the characters among the values of constants come from: they are written, named or made
by `chr`. -/
theorem eval_char {known : List (String × Constant)} {k : Source.ConstExpr} {c : Nat}
    (h : eval known k = .ok (.char c)) : k = .char c ∨
      (∃ n, k = .name n ∧ known.lookup n = some (.char c)) ∨ c ≤ 0xFFFF := by
  match k with
  | .int _ | .real _ | .bool _ | .text _ => cases h
  | .char _ =>
    cases h
    exact .inl rfl
  | .name n => exact .inr (.inl ⟨n, rfl, orError_eq_ok.mp h⟩)
  | .call f [x] =>
    simp only [eval, bind_eq_ok] at h
    obtain ⟨a, -, ha⟩ := h
    exact .inr (.inr (code_le_of_apply ha))
  | .call f [] => cases h
  | .call f (_ :: _ :: _) => cases h
  | .unary op x =>
    simp only [eval, bind_eq_ok] at h
    obtain ⟨a, -, ha⟩ := h
    exact absurd ha unary_ne_char
  | .binary op a b =>
    simp only [eval, bind_eq_ok] at h
    obtain ⟨x, -, y, -, hxy⟩ := h
    exact absurd hxy binary_ne_char

/-- The value of an expression of constants is past 16 bits only if it is a quoted letter or the
name of such a constant. -/
lemma codeUnit_of_eval {known : List (String × Constant)} {k : Source.ConstExpr}
    (hproduced : Source.Produces Source.constExpression k) (hletter : ¬ k.WideLetter)
    (hname : ¬ k.NamesWide known) {c : Nat} (h : eval known k = .ok (.char c)) : CodeUnit c := by
  rcases eval_char h with hk | ⟨n, hk, hlookup⟩ | hc
  · exact codeUnit_natCast.mpr
      (hproduced.holds Source.code_rules.constExpression_yields c hk hletter)
  · exact not_not.mp fun hwide => hname ⟨n, c, hk, hlookup, hwide⟩
  · exact codeUnit_natCast.mpr hc

end Constant

namespace Environment

open Source (Block ConstExpr TypeSpec)

variable {env env' : Environment}

/-- The characters among the constants are code units. -/
def CodeUnits (env : Environment) : Prop := ∀ d ∈ env.consts, ∀ c, d.2 = .char c → CodeUnit c

lemma CodeUnits.of_lookup (h : env.CodeUnits) {n : String} {c : Nat}
    (hlookup : env.consts.lookup n = some (.char c)) : CodeUnit c := by
  obtain ⟨_, _, hconsts, -⟩ := List.lookup_eq_some_iff.mp hlookup
  exact h (n, .char c) (by simp [hconsts]) c rfl

lemma mem_valuesOf {ty : String} {n : Nat} {vs : List String} {d : String × Constant}
    (h : d ∈ valuesOf ty n vs) : ∃ i, d.2 = .enum i ty := by
  induction vs generalizing n with
  | nil => cases h
  | cons v vs ih =>
    rcases List.mem_cons.mp h with rfl | h
    · exact ⟨_, rfl⟩
    · exact ih h

/-- A declared type brings no constants but the values of an enumeration. -/
lemma CodeUnits.specify (henv : env.CodeUnits) {path : ScopePath} {name : String}
    {spec : TypeSpec} {ty : Ty} (h : specify path env name spec = .ok (env', ty)) :
    env'.CodeUnits := by
  cases spec with
  | enum values =>
    simp only [Environment.specify, bind_eq_ok, pure_eq_ok, Prod.mk.injEq, declareValues_eq_ok] at h
    obtain ⟨_, ⟨-, -, rfl⟩, rfl, -⟩ := h
    refine List.forall_mem_append.mpr ⟨henv, fun d hd c hc => ?_⟩
    obtain ⟨i, hi⟩ := mem_valuesOf hd
    rw [hi] at hc
    cases hc
  | _ =>
    simp only [Environment.specify, bind_eq_ok, pure_eq_ok, Prod.mk.injEq, Except.ok.injEq] at h
    obtain rfl : env = env' := by tauto
    exact henv

lemma Step.codeUnits {s : Step} (henv : env.CodeUnits)
    (hconst : ∀ path n e, s = .declare path (.const n e) →
      Source.Produces Source.constExpression e ∧ ¬ e.WideLetter)
    (h : s.run env = .ok env') : env'.CodeUnits := by
  match s with
  | .declare path (.const n e) =>
    obtain ⟨-, v, hv, rfl⟩ := declareConst_ok h
    obtain ⟨hproduced, hletter⟩ := hconst path n e rfl
    refine forall_mem_concat henv fun c hc => ?_
    cases hc
    refine Constant.codeUnit_of_eval hproduced hletter ?_ hv
    rintro ⟨m, k, -, hlookup, hwide⟩
    exact hwide (henv.of_lookup hlookup)
  | .declare path (.type n spec) =>
    obtain ⟨-, mid, ty, hspec, rfl⟩ := declareType_ok h
    show mid.CodeUnits
    exact henv.specify hspec
  | .var path n ref =>
    obtain ⟨-, h⟩ := ok_of_guard h
    simp only [bind_eq_ok, pure_eq_ok] at h
    obtain ⟨t, -, rfl⟩ := h
    exact henv
  | .heading path seen (first, b) =>
    obtain ⟨-, h⟩ := ok_of_guard h
    simp only [bind_eq_ok] at h
    obtain ⟨params, -, result, -, h⟩ := h
    cases h
    exact henv

/-- The declared characters are code units unless a wide letter is declared. -/
theorem codeUnits_iff {p : Source.Program} (hparsed : p.block.Each Block.Parsed)
    (h : ofProgram p = .ok env) :
    env.CodeUnits ↔ ∀ b ∈ p.block.blocks, ∀ d ∈ b.consts, ¬ d.2.WideLetter := by
  rw [ofProgram, declareBlock_eq_steps] at h
  constructor
  · rintro hunits b hb ⟨n, e⟩ hd ⟨letter, hlt, rfl⟩
    obtain ⟨path, hown⟩ := ownSteps_subset_blockSteps [] p.block b hb
    obtain ⟨cur, next, hrun, -, hkept⟩ :=
      (steps_taken h).2 _ (hown (declare_mem_ownSteps.mpr ⟨rfl, .inl ⟨_, hd, rfl⟩⟩))
    obtain ⟨hfresh, c, hc, rfl⟩ := declareConst_ok hrun
    cases hc
    have hlookup : (cur.addConst n (.char letter.toNat)).consts.lookup n =
        some (.char letter.toNat) := by
      rw [addConst, lookup_append_of_notMem hfresh, List.lookup_cons_self]
    have hle := codeUnit_natCast.mp (hunits.of_lookup (hkept.consts hlookup))
    omega
  · intro hnarrow
    have hempty : Environment.empty.CodeUnits := List.forall_mem_nil _
    refine of_steps (fun s hs cur next hcur => Step.codeUnits hcur ?_) hempty h
    rintro path n e rfl
    obtain ⟨b, hb, q, hmem⟩ := mem_ownSteps_of_blockSteps [] p.block hs
    obtain ⟨-, ⟨d, hd, heq⟩ | ⟨d, -, heq⟩⟩ := declare_mem_ownSteps.mp hmem
    · cases heq
      exact ⟨(Block.each_iff_blocks.mp hparsed b hb).1 d hd, hnarrow b hb d hd⟩
    · cases heq

end Environment

/-- The constants of branches are code units wherever the selector is a character. -/
def Typed.Program.CodeUnits (q : Typed.Program) : Prop :=
  ∀ selector branches otherwise, q.Has (.caseOf selector branches otherwise) →
    selector.ty = .char → ∀ branch ∈ branches, ∀ i ∈ branch.1, CodeUnit i.toInt

namespace Check

open Typed

variable {s : Scope}

lemma caseConstant_eq_ok {selector : Ty} {k : Source.ConstExpr} {i : Int32} :
    caseConstant s selector k = .ok i ↔ ∃ c, Constant.eval s.env.consts k = .ok c ∧
      selector.same c.ty = true ∧ c.ordinal? = some i := by
  simp [caseConstant, bind_eq_ok]

/-- A character as the constant of a branch. -/
lemma caseConstant_char {k : Source.ConstExpr} {i : Int32} :
    caseConstant s .char k = .ok i ↔
      ∃ c : Nat, Constant.eval s.env.consts k = .ok (.char c) ∧ i.toInt = c := by
  rw [caseConstant_eq_ok]
  constructor
  · rintro ⟨c, hc, hsame, hi⟩
    cases c with
    | char c => exact ⟨c, hc, Constant.toInt_of_fit hi⟩
    | _ => cases hsame
  · rintro ⟨c, hc, hi⟩
    refine ⟨.char c, hc, rfl, ?_⟩
    rw [Constant.ordinal?, ← hi, Constant.fit_toInt]

lemma selector_eq_char {selector : Ty} {k : Source.ConstExpr} {i : Int32} {c : Nat}
    (h : caseConstant s selector k = .ok i)
    (hc : Constant.eval s.env.consts k = .ok (.char c)) : selector = .char := by
  obtain ⟨v, hv, hsame, -⟩ := caseConstant_eq_ok.mp h
  rw [hc] at hv
  cases hv
  exact Ty.eq_of_same hsame (Ty.isAggregate_of_same hsame)

/-- The constants of branches are code units unless a wide letter, or a constant that is none, is
written there. -/
theorem codeUnits_iff {env : Environment} {p : Source.Program} {q : Program}
    (hwritten : ∀ x, p.Has x → x.Written) (h : (program env p).outcome = .ok q) :
    q.CodeUnits ↔ ∀ x, p.Has x → ∀ k ∈ x.labels, ¬ k.WideLetter ∧ ¬ k.NamesWide env.consts := by
  obtain ⟨hback, hforth⟩ := program_statements h
  constructor
  · intro hunits x hx k hk
    obtain ⟨y, hy, s, rfl, hchecks⟩ := hforth x hx
    cases keeps_of_checks hchecks with
    | caseOf selector harms _ =>
      obtain ⟨arm, harm, hk⟩ := List.mem_flatMap.mp hk
      obtain ⟨branch, hbranch, hconstants, -⟩ := exists_right_of_forall₂ harms harm
      obtain ⟨i, hi, hki⟩ := exists_right_of_forall₂ hconstants hk
      -- a character among the labels is a constant of a branch
      have hvalue : ∀ c : Nat, Constant.eval s.env.consts k = .ok (.char c) → CodeUnit c := by
        intro c hc
        have hchar := selector_eq_char hki hc
        rw [hchar, caseConstant_char] at hki
        obtain ⟨d, hd, hid⟩ := hki
        rw [hc] at hd
        cases hd
        exact hid ▸ hunits _ _ _ hy hchar branch hbranch i hi
      constructor
      · rintro ⟨letter, hlt, rfl⟩
        have hle := codeUnit_natCast.mp (hvalue letter.toNat rfl)
        omega
      · rintro ⟨n, c, rfl, hlookup, hwide⟩
        exact hwide (hvalue c (Constant.orError_eq_ok.mpr hlookup))
    | _ => cases hk
  · intro hnarrow selector branches otherwise hy hchar branch hbranch i hi
    obtain ⟨x, hx, s, rfl, hchecks⟩ := hback _ hy
    cases keeps_of_checks hchecks with
    | caseOf source harms _ =>
      obtain ⟨arm, harm, hconstants, -⟩ := exists_left_of_forall₂ harms hbranch
      obtain ⟨k, hk, hki⟩ := exists_left_of_forall₂ hconstants hi
      have hlabel : k ∈ List.flatMap Prod.fst _ := List.mem_flatMap.mpr ⟨arm, harm, hk⟩
      obtain ⟨hletter, hname⟩ := hnarrow _ hx k hlabel
      rw [hchar, caseConstant_char] at hki
      obtain ⟨c, hc, hic⟩ := hki
      rw [hic]
      exact Constant.codeUnit_of_eval ((hwritten _ hx).2 k hlabel) hletter hname hc

lemma toInt_ofNat_of_le {n : Nat} (h : n ≤ 0x10FFFF) : (Int32.ofNat n).toInt = n :=
  Constant.toInt_of_fit (Constant.fit_of_le h)

/-- A literal that is taken for a character is a code unit unless it is a wide letter. -/
lemma codeUnit_iff_of_literal {expected : Option Ty} {l : Source.Expr} {v : Int32} (hl : l.Coded)
    (h : (expr s expected l).outcome = .ok (.int .char v)) :
    CodeUnit v.toInt ↔ ¬ l.WideLetter := by
  rcases hl with ⟨c, hc, rfl⟩ | ⟨t, rfl⟩
  · cases h
    rw [toInt_ofNat_of_le (by omega), codeUnit_natCast]
    exact iff_of_true hc nofun
  · replace h : literal expected t = .int .char v := Except.ok.inj h
    unfold literal at h
    split at h
    next => cases h
    next letter ht _ =>
      cases h
      obtain rfl : t = String.ofList [letter] := by rw [← ht, String.ofList_toList]
      rw [toInt_ofNat_of_le (Constant.toNat_le letter), codeUnit_natCast, ← not_lt, not_iff_not]
      refine ⟨fun hlt => ⟨letter, hlt, rfl⟩, ?_⟩
      rintro ⟨letter', hlt, heq⟩
      obtain rfl : letter = letter' := by simpa using heq
      exact hlt
    next => cases h

end Check

/-- Every character among the constants of a program, among the constants of its branches and among
the literals of its expressions is a UTF-16 code unit, but for a quoted letter past 16 bits and the
constants that are declared by one. -/
theorem char_constants_are_code_units_iff {text : List Char} {p : Source.Program}
    {env : Environment} {q : Typed.Program} (hparse : Source.Program.parse text = .ok p)
    (henv : Environment.ofProgram p = .ok env) (hq : (Check.program env p).outcome = .ok q) :
    (env.CodeUnits ↔ ∀ b ∈ p.block.blocks, ∀ d ∈ b.consts, ¬ d.2.WideLetter) ∧
    (q.CodeUnits ↔
      ∀ x, p.Has x → ∀ k ∈ x.labels, ¬ k.WideLetter ∧ ¬ k.NamesWide env.consts) ∧
    ∀ x, p.Has x → ∀ e ∈ x.exprs, ∀ l ∈ e.literals, ∀ s expected v,
      (Check.expr s expected l).outcome = .ok (.int .char v) →
        (CodeUnit v.toInt ↔ ¬ l.WideLetter) := by
  have hwritten : ∀ x, p.Has x → x.Written := fun x hx => Source.Program.written_of_parse hparse hx
  refine ⟨Environment.codeUnits_iff (Source.Program.parsed_of_parse hparse) henv,
    Check.codeUnits_iff hwritten hq, ?_⟩
  intro x hx e he l hl s expected v hv
  exact Check.codeUnit_iff_of_literal ((hwritten x hx).coded he hl) hv

/-- The constants of the program of a text, if all of it is accepted. -/
def checkedConsts? (text : List Char) : Option (List (String × Constant)) :=
  (Source.Program.parse text).toOption.bind fun p =>
    (Environment.ofProgram p).toOption.bind fun env =>
      (Check.program env p).outcome.toOption.map fun _ => env.consts

lemma of_checkedConsts? {text : List Char} {consts : List (String × Constant)}
    (h : checkedConsts? text = some consts) : ∃ p env q, Source.Program.parse text = .ok p ∧
      Environment.ofProgram p = .ok env ∧ (Check.program env p).outcome = .ok q ∧
      env.consts = consts := by
  obtain ⟨p, hp, h⟩ := Option.bind_eq_some_iff.mp h
  obtain ⟨env, henv, h⟩ := Option.bind_eq_some_iff.mp h
  obtain ⟨q, hq, hconsts⟩ := Option.map_eq_some_iff.mp h
  rw [toOption_eq_some] at hp henv hq
  exact ⟨p, env, q, hp, henv, hq, hconsts⟩

/-- A character is declared by number and named in a branch, and a wide letter is assigned. -/
def branchText : List Char :=
  "program p; const c = #65; var x: char; begin case x of 'a', c: x := '😀' end end.".toList

theorem branchText_declares_code_unit : ∃ p env q, Source.Program.parse branchText = .ok p ∧
    Environment.ofProgram p = .ok env ∧ (Check.program env p).outcome = .ok q ∧
    env.consts = [("c", .char 65)] ∧ (∀ b ∈ p.block.blocks, ∀ d ∈ b.consts, ¬ d.2.WideLetter) ∧
    (q.CodeUnits ↔
      ∀ x, p.Has x → ∀ k ∈ x.labels, ¬ k.WideLetter ∧ ¬ k.NamesWide [("c", .char 65)]) := by
  have hconsts : checkedConsts? branchText = some [("c", .char 65)] := by decide +kernel
  obtain ⟨p, env, q, hp, henv, hq, hc⟩ := of_checkedConsts? hconsts
  obtain ⟨hdeclared, hbranches, -⟩ := char_constants_are_code_units_iff hp henv hq
  rw [hc] at hbranches
  refine ⟨p, env, q, hp, henv, hq, hc, hdeclared.mp ?_, hbranches⟩
  intro d hd c hdc
  rw [hc, List.mem_singleton] at hd
  subst hd
  cases hdc
  decide

/-- A quoted letter is declared as it is, with its code point. -/
theorem quoted_letter_is_no_code_unit : ∃ p env q,
    Source.Program.parse "program p; const c = '😀'; begin end.".toList = .ok p ∧
    Environment.ofProgram p = .ok env ∧ (Check.program env p).outcome = .ok q ∧
    ("c", .char 0x1F600) ∈ env.consts ∧ ¬ CodeUnit 0x1F600 := by
  have hconsts : checkedConsts? "program p; const c = '😀'; begin end.".toList =
      some [("c", .char 0x1F600)] := by decide +kernel
  obtain ⟨p, env, q, hp, henv, hq, hc⟩ := of_checkedConsts? hconsts
  exact ⟨p, env, q, hp, henv, hq, by simp [hc], by decide⟩

end PascalJvm
