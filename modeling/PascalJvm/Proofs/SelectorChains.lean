import PascalJvm.Check.Expression
import PascalJvm.Proofs.Nesting

/-!
# Selector chains read and written

A variable with selectors may be a target or a value. As a target the chain is kept as it is
written, with one to three positions in each pair of brackets; as a value each position is a step
of its own. Both mean the same place (`selector_chain_means_same_place`): the same text is read in
both ways up to the same end, unless an operator or a parenthesis goes on with the value, and the
two trees are checked with the same result, errors included.

A variable whose name is a truth value is an exception. It can be declared and assigned, but where
a value may stand the word is a literal.
-/
namespace PascalJvm.Source

open Source.Parser

/-- The word is a truth value, in any letter case. -/
def isTruthWord (n : String) : Bool :=
  Lexeme.lower n.toList = "true".toList || Lexeme.lower n.toList = "false".toList

/-- The text goes on with arguments or with an operator. -/
def Continues (r : List Char) : Prop :=
  ¬ Misses (symbol "(") r ∨ ¬ Misses multiplicationOp r ∨ ¬ Misses additionOp r ∨
    ¬ Misses comparisonOp r

/-- The parser reads `a` and leaves `r`, or it goes on from there. -/
def ReadsUpTo {α : Type} (p : Parser α) (s : List Char) (a : α) (r : List Char) : Prop :=
  ∃ b r', Finds p s b r' ∧ (r' = r ∧ b = a ∨ r'.length < r.length ∧ Continues r)

variable {s r : List Char}

section Words

variable {n : String}

lemma word_of_identifier (h : Finds identifier s n r) :
    Lexeme.word (Layout.skip s) = n.toList ∧ Lexeme.isReserved n.toList = false := by
  rw [identifier, finds_lexeme] at h
  unfold Lexeme.identifier? at h
  split at h
  next => cases h
  next c t hskip =>
    split_ifs at h with hc
    cases h
    simp only [Bool.and_eq_true, Bool.not_eq_true'] at hc
    rw [hskip, String.toList_ofList]
    exact ⟨rfl, hc.2⟩

lemma misses_keyword_of_identifier (h : Finds identifier s n r) {k : String}
    (hk : k ∈ Lexeme.reserved) : Misses (keyword k) s := by
  obtain ⟨hword, hreserved⟩ := word_of_identifier h
  rw [keyword, misses_lexeme, Lexeme.keyword?, hword, if_neg]
  intro heq
  rw [Lexeme.isReserved, List.any_eq_false] at hreserved
  exact hreserved k hk (by simpa using heq)

lemma misses_unaryOp_of_identifier (h : Finds identifier s n r) : Misses unaryOp s := by
  obtain ⟨c, t, hskip, hstart⟩ := head_of_identifier h
  have hskip' : Layout.skip (Layout.skip s) = c :: t := by rw [Layout.skip_skip, hskip]
  have hword : Finds identifier (Layout.skip s) n r := by
    rw [identifier, finds_lexeme, Layout.skip_skip] at *
    exact h
  rw [unaryOp, misses_rule, misses_firstOf]
  simp only [List.mem_cons, List.not_mem_nil, or_false, forall_eq_or_imp, forall_eq]
  refine ⟨.bind ?_, .bind ?_, .bind (misses_keyword_of_identifier hword (by decide))⟩
  · refine misses_symbol_of_head hskip' ?_ (by decide)
    rintro d hd rfl
    cases hd
    cases hstart
  · refine misses_symbol_of_head hskip' ?_ (by decide)
    rintro d hd rfl
    cases hd
    cases hstart

/-- A name that is no truth value is no literal. -/
lemma misses_literal_of_identifier {α : Type} {bool : Bool → α} {real : Single → α}
    {int : Int32 → α} {text : List Char → α} {char : Nat → α} (h : Finds identifier s n r)
    (hn : isTruthWord n = false) : Misses (literal bool real int text char) s := by
  obtain ⟨c, t, hskip, hstart⟩ := head_of_identifier h
  obtain ⟨hword, -⟩ := word_of_identifier h
  have hbool : Lexeme.bool? (Layout.skip s) = none := by
    simp only [isTruthWord, Bool.or_eq_false_iff, decide_eq_false_iff_not] at hn
    simp only [Lexeme.bool?, Lexeme.named?, hword]
    simpa using ⟨hn.2, hn.1⟩
  refine misses_literal_of_head hskip hbool (Lexeme.isDigit_of_isWordStart hstart) ?_
  refine ⟨?_, ?_, ?_⟩ <;> rintro rfl <;> cases hstart

end Words

section Layers

variable {α : Type} {p : Parser (Formed α)} {x : Formed α}

lemma ReadsUpTo.unaryLayer (node : UnOp → α → α) (hs : Misses unaryOp s)
    (h : ReadsUpTo p s x r) : ReadsUpTo (unaryLayer node p) s x r := by
  obtain ⟨y, r', hy, hcases⟩ := h
  have hmap : y.map (applyUnary node []) = y := by cases y <;> rfl
  refine ⟨y, r', ?_, hcases⟩
  rw [Source.unaryLayer]
  exact finds_bind.mpr ⟨[], s, (Repeats.stop hs).finds_many, finds_bind_pure.mpr ⟨y, hy, hmap⟩⟩

lemma ReadsUpTo.binaryLayer (node : BinOp → α → α → α) {op : Parser BinOp} (hop : Consumes op)
    (hp : Shrinks p) (hgoes : ∀ t, ¬ Misses op t → Continues t) (h : ReadsUpTo p s x r) :
    ReadsUpTo (binaryLayer node op p) s x r := by
  obtain ⟨y, r', hy, hcases⟩ := h
  have hitem : Consumes (do let o ← op; let x ← p; return (o, x)) :=
    hop.bind fun _ => hp.bind fun _ => shrinks_pure _
  obtain ⟨more, u, hmore⟩ := exists_finds_upTo (do let o ← op; let x ← p; return (o, x))
    (r'.length + 1) r'
  have hfinds : Finds (Source.binaryLayer node op p) s (joinLeft node y more) u :=
    finds_bind.mpr ⟨y, r', hy, finds_bind_pure.mpr ⟨more, hmore, rfl⟩⟩
  refine ⟨_, u, hfinds, ?_⟩
  cases hitem.repeats_of_upTo hmore (Nat.lt_succ_self _) with
  | stop => exact hcases
  | step hfirst hlt hrest =>
    have hle := hrest.length_le
    rcases hcases with ⟨rfl, -⟩ | ⟨hlt', hr⟩
    · obtain ⟨o, v, ho, -⟩ := finds_bind.mp hfirst
      exact .inr ⟨hle.trans_lt hlt, hgoes r' ho.not_misses⟩
    · exact .inr ⟨by omega, hr⟩

lemma ReadsUpTo.comparisonLayer {p : Parser (Formed Expr)} {x : Formed Expr} (hp : Shrinks p)
    (h : ReadsUpTo p s x r) : ReadsUpTo (comparisonLayer p) s x r := by
  obtain ⟨y, r', hy, hcases⟩ := h
  rcases finds_or_misses (do let o ← comparisonOp; let b ← p; return (o, b)) r' with
    ⟨⟨o, z⟩, u, hz⟩ | hmiss
  · have hfinds : Finds (Source.comparisonLayer p) s (do return .binary o (← y) (← z)) u := by
      rw [Source.comparisonLayer]
      exact finds_bind.mpr ⟨y, r', hy, finds_bind_pure.mpr
        ⟨some (o, z), finds_optional.mpr (.inl ⟨_, rfl, hz⟩), rfl⟩⟩
    refine ⟨_, u, hfinds, .inr ?_⟩
    have hlt := shrinks_another consumes_comparisonOp hp r' _ u hz
    rcases hcases with ⟨rfl, -⟩ | ⟨hlt', hr⟩
    · obtain ⟨o', v, ho, -⟩ := finds_bind.mp hz
      exact ⟨hlt, .inr (.inr (.inr ho.not_misses))⟩
    · exact ⟨by omega, hr⟩
  · refine ⟨y, r', ?_, hcases⟩
    rw [Source.comparisonLayer]
    exact finds_bind.mpr ⟨y, r', hy, finds_bind_pure.mpr
      ⟨none, finds_optional.mpr (.inr ⟨hmiss, rfl, rfl⟩), rfl⟩⟩

end Layers

section Access

variable {a : Access}

lemma finds_access_skip {x : Formed Access} :
    Finds access (Layout.skip s) x r ↔ Finds access s x r := by
  rw [access, accessOver, finds_rule, finds_rule, Layout.skip_skip]

/-- The base of an access, and the selectors behind it. -/
lemma base_of_access (h : Finds access s (.ok a) r) :
    ∃ t, Finds identifier s a.base t ∧
      ∃ xs, Repeats (orElse fieldSelector (indexSelector expression)) t xs r := by
  simp only [access, accessOver, finds_rule, finds_bind, finds_pure] at h
  obtain ⟨base, t, hbase, xs, u, hxs, ha, rfl⟩ := h
  simp only [bind_eq_ok, pure_eq_ok] at ha
  obtain ⟨selectors, -, rfl⟩ := ha
  rw [identifier, finds_lexeme, Layout.skip_skip] at hbase
  exact ⟨t, finds_lexeme.mpr hbase, xs, (consumes_selector shrinks_expression).finds_many.mp hxs⟩

lemma primary_of_access (h : Finds access s (.ok a) r) (hbase : isTruthWord a.base = false) :
    ReadsUpTo (primary expression) s (.ok a.toExpr) r := by
  obtain ⟨t, hname, xs, hxs⟩ := base_of_access (finds_access_skip.mpr h)
  obtain ⟨c, u, hskip, hstart⟩ := head_of_identifier hname
  have hparentheses : Misses (between "(" ")" expression) (Layout.skip s) := by
    refine misses_parentheses fun v hv => ?_
    rw [hskip] at hv
    cases hv
    cases hstart
  have hliteral : Misses (literal .bool .real .int (fun t => .text (String.ofList t)) .char :
      Parser (Formed Expr)) (Layout.skip s) := misses_literal_of_identifier hname hbase
  simp only [ReadsUpTo, primary, finds_rule]
  rcases finds_or_misses (callOver expression) (Layout.skip s) with ⟨y, r', hy⟩ | hcall
  · -- arguments stand right behind the name, so there are no selectors
    refine ⟨y, r', finds_firstOf_cons.mpr (.inr ⟨hparentheses, finds_firstOf_cons.mpr (.inr
      ⟨hliteral, finds_firstOf_cons.mpr (.inl hy)⟩)⟩), .inr ?_⟩
    simp only [callOver, finds_rule, finds_bind, finds_pure, Layout.skip_skip] at hy
    obtain ⟨f, v, hf, args, w, hargs, -, rfl⟩ := hy
    obtain ⟨-, rfl⟩ := hname.unique hf
    have hlt := (shrinks_expression.commaList.optional.between (by decide) (by decide)) _ _ _ hargs
    obtain ⟨z, z', hopen, -⟩ := finds_between.mp hargs
    cases hxs with
    | stop => exact ⟨hlt, .inl (not_misses_symbol hopen)⟩
    | step hfirst _ _ =>
      obtain ⟨d, v, hd, hmark⟩ := head_of_selector hfirst
      rw [hopen] at hd
      cases hd
      exact absurd hmark (by decide)
  · refine ⟨.ok a.toExpr, r, ?_, .inl ⟨rfl, rfl⟩⟩
    refine finds_firstOf_cons.mpr (.inr ⟨hparentheses, ?_⟩)
    refine finds_firstOf_cons.mpr (.inr ⟨hliteral, ?_⟩)
    refine finds_firstOf_cons.mpr (.inr ⟨hcall, finds_firstOf_cons.mpr (.inl ?_)⟩)
    exact finds_bind_pure.mpr ⟨.ok a, finds_access_skip.mpr h, rfl⟩

/-- The text of a target is read as a value with the same selectors. -/
theorem expression_of_access (h : Finds access s (.ok a) r) (hbase : isTruthWord a.base = false) :
    ReadsUpTo expression s (.ok a.toExpr) r := by
  obtain ⟨t, hname, -⟩ := base_of_access h
  have hshrinks := shrinks_unaryLayer (shrinks_primary shrinks_expression)
  have hshrinks' := shrinks_binaryLayer consumes_multiplicationOp hshrinks
  have hunary := (primary_of_access h hbase).unaryLayer Expr.unary
    (misses_unaryOp_of_identifier hname)
  have hproduct := hunary.binaryLayer Expr.binary consumes_multiplicationOp hshrinks
    fun t ht => .inr (.inl ht)
  have hsum := hproduct.binaryLayer Expr.binary consumes_additionOp hshrinks'
    fun t ht => .inr (.inr (.inl ht))
  obtain ⟨x, r', hx, hcases⟩ :=
    hsum.comparisonLayer (shrinks_binaryLayer consumes_additionOp hshrinks')
  exact ⟨x, r', finds_expression.mpr hx, hcases⟩

end Access

end PascalJvm.Source

namespace PascalJvm.Check

open Typed Source.Parser

variable {s : Scope}

lemma place_positions (e : Source.Expr) (is : List Source.Expr) :
    place s (is.foldl .index e) = place s e >>= fun d => positions s d is := by
  induction is generalizing e with
  | nil => exact (bind_pure _).symm
  | cons i is ih =>
    rw [List.foldl_cons, ih, place]
    simp only [bind_assoc, positions]

/-- A chain of selectors around an expression selects in the place of the expression. -/
lemma place_selectors (e : Source.Expr) (sels : List Source.Selector) :
    place s (sels.foldl Source.Selector.apply e) = place s e >>= fun d => selectors s d sels := by
  induction sels generalizing e with
  | nil => exact (bind_pure _).symm
  | cons sel sels ih =>
    rw [List.foldl_cons, ih]
    cases sel with
    | field f =>
      rw [Source.Selector.apply, place]
      simp only [bind_assoc, selectors]
    | index is =>
      rw [Source.Selector.apply, place_positions]
      simp only [bind_assoc, selectors]

lemma place_toExpr (a : Source.Access) : place s a.toExpr = access s a := by
  rw [Source.Access.toExpr, place_selectors, place, access]

section Selectors

variable (sels : List Source.Selector) {e : Source.Expr}

lemma isAccess_selectors (he : isAccess e) : isAccess (sels.foldl Source.Selector.apply e) := by
  have hpositions : ∀ (is : List Source.Expr) (e : Source.Expr), isAccess e →
      isAccess (is.foldl .index e) := by
    intro is
    induction is with
    | nil => exact fun _ he => he
    | cons i is ih => exact fun e he => ih (.index e i) he
  induction sels generalizing e with
  | nil => exact he
  | cons sel sels ih =>
    cases sel with
    | field f => exact ih he
    | index is => exact ih (hpositions is e he)

/-- Selectors make no name, unless there are none. -/
lemma eq_name_of_selectors {n : String} (h : sels.foldl Source.Selector.apply e = .name n) :
    e = .name n := by
  have hpositions : ∀ (is : List Source.Expr) (e : Source.Expr),
      is.foldl .index e = .name n → e = .name n := by
    intro is
    induction is with
    | nil => exact fun _ he => he
    | cons i is ih => exact fun e he => nomatch ih (.index e i) he
  induction sels generalizing e with
  | nil => exact h
  | cons sel sels ih =>
    cases sel with
    | field f => exact nomatch ih h
    | index is => exact hpositions is e (ih h)

end Selectors

/-- The value of a place is read from the place. -/
lemma expr_of_isAccess {e : Source.Expr} (he : isAccess e)
    (hname : ∀ n, e = .name n → ∃ v, s.symbol? n = some v) (expected : Option Ty) :
    expr s expected e = place s e >>= fun d => return d.toExpr := by
  cases e with
  | name n =>
    obtain ⟨v, hv⟩ := hname n rfl
    rw [expr, checkName, place, Scope.variableNamed, hv]
    rfl
  | field e f =>
    have he : isAccess e := he
    rw [expr, if_pos he, place]
    simp only [bind_assoc]
  | index e i =>
    have he : isAccess e := he
    rw [expr, if_pos he, place]
    simp only [bind_assoc]
  | int | real | bool | char | text | call | unary | binary => cases he

lemma expr_toExpr {a : Source.Access} {v : Symbol} (hv : s.symbol? a.base = some v)
    (expected : Option Ty) :
    expr s expected a.toExpr = access s a >>= fun d => return d.toExpr := by
  rw [← place_toExpr]
  refine expr_of_isAccess (isAccess_selectors a.selectors rfl) (fun n hn => ⟨v, ?_⟩) expected
  cases eq_name_of_selectors a.selectors hn
  exact hv

/-- A place is passed by reference as it is. -/
lemma arguments_toExpr {a : Source.Access} {p : Passing} (hp : p.byRef) (routine : String)
    (number : Nat) (params : List Passing) (args : List Source.Expr) :
    arguments s routine number (p :: params) (a.toExpr :: args) = do
      let d ← access s a
      lift (require (p.ty.same d.ty) (.argumentMismatch number routine p.ty d.ty))
      Traced.report (.argument s.path.text number d.ty)
      let rest ← arguments s routine (number + 1) params args
      return .ref d.place d.ty :: rest := by
  have ha : isAccess a.toExpr := isAccess_selectors a.selectors rfl
  rw [arguments, if_pos hp, if_pos ha, place_toExpr]
  simp only [pure_bind]

/-- The text of a target is also read as a value, if nothing behind it goes on with the value. If
the base is a variable of the scope, the value is what the place of the target holds, or checking
fails in both cases with the same error; and the place is what a parameter by reference gets. -/
theorem selector_chain_means_same_place {text rest : List Char} {a : Source.Access}
    (h : Finds Source.access text (.ok a) rest) (hbase : Source.isTruthWord a.base = false) :
    (¬ Source.Continues rest → ∃ e, Finds Source.expression text (.ok e) rest) ∧
    ∀ e, Finds Source.expression text (.ok e) rest →
      ∀ (s : Scope) (v : Symbol), s.symbol? a.base = some v →
        (∀ expected, (∀ d : Designator,
            (expr s expected e).outcome = .ok (.read d.ty d.place d.ty) ↔
              (access s a).outcome = .ok d) ∧
          ∀ error, (expr s expected e).outcome = .error error ↔
            (access s a).outcome = .error error) ∧
        ∀ (p : Passing) (routine : String) (number : Nat) (params : List Passing)
            (args : List Source.Expr), p.byRef →
          arguments s routine number (p :: params) (e :: args) = do
            let d ← access s a
            lift (require (p.ty.same d.ty) (.argumentMismatch number routine p.ty d.ty))
            Traced.report (.argument s.path.text number d.ty)
            let others ← arguments s routine (number + 1) params args
            return .ref d.place d.ty :: others := by
  obtain ⟨x, r, hx, hcases⟩ := Source.expression_of_access h hbase
  constructor
  · intro hends
    rcases hcases with ⟨rfl, rfl⟩ | ⟨-, hgoes⟩
    · exact ⟨_, hx⟩
    · exact absurd hgoes hends
  · intro e he s v hv
    obtain ⟨rfl, rfl⟩ := hx.unique he
    obtain rfl : e = a.toExpr := by
      rcases hcases with ⟨-, heq⟩ | ⟨hlt, -⟩
      · exact Except.ok.inj heq
      · exact absurd hlt (lt_irrefl _)
    refine ⟨fun expected => ?_, fun p routine number params args hp =>
      arguments_toExpr hp routine number params args⟩
    rw [expr_toExpr hv, Traced.outcome_bind]
    cases (access s a).outcome with
    | error e =>
      refine ⟨fun d => ⟨nofun, nofun⟩, fun error => ⟨?_, ?_⟩⟩ <;> rintro ⟨⟩ <;> rfl
    | ok d =>
      obtain ⟨place, ty⟩ := d
      refine ⟨fun d => ⟨fun heq => ?_, ?_⟩, fun error => ⟨nofun, nofun⟩⟩
      · obtain ⟨place', ty'⟩ := d
        cases heq
        rfl
      · rintro ⟨⟩
        rfl

/-- A target with two positions in one pair of brackets, and a chain inside a position. -/
def chainText : List Char := "rows[i, ks[2]].cells[j + 1] := 0".toList

def chainScope : Scope where
  env := ⟨[], [], [("i", .integer), ("j", .integer), ("ks", .array 1 3 .integer),
    ("rows", .array 1 3 (.array 1 3 (.record "row" [("cells", .array 0 4 .real)])))], []⟩
  path := []
  locals := []
  routines := []

theorem chainText_means_same_place : ∃ a e d, Finds Source.access chainText (.ok a) " := 0".toList ∧
    Finds Source.expression chainText (.ok e) " := 0".toList ∧ d.ty = .real ∧
    (access chainScope a).outcome = .ok d ∧
    (expr chainScope none e).outcome = .ok (.read d.ty d.place d.ty) := by
  have hresult : ((Source.access chainText).result.bind fun x => x.1.toOption.bind fun a =>
      (access chainScope a).outcome.toOption.map fun d =>
        (a.base, x.2, d.ty.is .real)) = some ("rows", " := 0".toList, true) := by decide +kernel
  obtain ⟨⟨x, rest⟩, hfinds, hresult⟩ := Option.bind_eq_some_iff.mp hresult
  obtain ⟨a, ha, hresult⟩ := Option.bind_eq_some_iff.mp hresult
  obtain ⟨d, hd, hresult⟩ := Option.map_eq_some_iff.mp hresult
  rw [toOption_eq_some] at ha hd
  simp only [Prod.mk.injEq] at hresult
  obtain ⟨hbase, rfl, hty⟩ := hresult
  rw [show x = .ok a from ha] at hfinds
  obtain ⟨hends, hsame⟩ := selector_chain_means_same_place hfinds (by rw [hbase]; decide +kernel)
  obtain ⟨e, he⟩ := hends (by rintro (h | h | h | h) <;> exact h rfl)
  refine ⟨a, e, d, hfinds, he, ?_, hd, ?_⟩
  · unfold Ty.is at hty
    split at hty
    · rw [decide_eq_true_eq] at hty
      subst hty
      assumption
    · cases hty
  · obtain ⟨hvalue, -⟩ := hsame e he chainScope _ (by rw [hbase]; rfl)
    exact ((hvalue none).1 d).mpr hd

/-- A variable with the name of a truth value. -/
def truthScope : Scope where
  env := ⟨[], [], [("true", .boolean)], []⟩
  path := []
  locals := []
  routines := []

/-- The name of such a variable is a target, but as a value it is a literal. -/
theorem truth_word_is_no_place : ∃ a e, Finds Source.access "true".toList (.ok a) [] ∧
    Finds Source.expression "true".toList (.ok e) [] ∧
    (∃ v, truthScope.symbol? a.base = some v ∧
      (access truthScope a).outcome = .ok (.ofSymbol v)) ∧
    ∀ d : Designator, (expr truthScope none e).outcome ≠ .ok (.read d.ty d.place d.ty) :=
  ⟨⟨"true", []⟩, .bool true, rfl, rfl, ⟨_, rfl, rfl⟩, nofun⟩

end PascalJvm.Check
