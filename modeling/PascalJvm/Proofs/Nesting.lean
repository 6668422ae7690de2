import PascalJvm.Proofs.SameText

/-!
# Bounds on nesting

Expressions and statements are read with a bound on the levels of nesting, one more than the
length of the text. The bound is never met: a nested piece begins at least one character later, so
on a text shorter than two bounds it does not matter which of them is used (`Agree`). Hence a
parser whose knot is tied in this way reads what its own layers read (`finds_expression`), and a
property of all it reads may be proved from what nested pieces have (`forall_of_layers`).
-/
namespace PascalJvm.Source

namespace Parser

variable {α β : Type} {p q : Parser α} {M N : Nat}

/-- On texts shorter than `N` the two parsers find the same, and leave no more than there was. -/
def Agree (N : Nat) (p q : Parser α) : Prop :=
  ∀ s, s.length < N → (p s).result = (q s).result ∧ ∀ a r, Finds p s a r → r.length ≤ s.length

lemma Shrinks.agree (hp : Shrinks p) (N : Nat) : Agree N p p := fun s _ => ⟨rfl, hp s⟩

lemma agree_pure (a : α) (N : Nat) : Agree N (return a) (return a) := (shrinks_pure a).agree N

lemma shrinks_of_agree (h : ∀ N, Agree N p q) : Shrinks p :=
  fun s => (h (s.length + 1) s (Nat.lt_succ_self _)).2

lemma Agree.finds {s r : List Char} {a : α} (h : Agree N p q) (hs : s.length < N) :
    Finds p s a r ↔ Finds q s a r := by
  unfold Finds
  rw [(h s hs).1]

lemma finds_of_agree (h : ∀ N, Agree N p q) {s r : List Char} {a : α} :
    Finds p s a r ↔ Finds q s a r :=
  (h (s.length + 1)).finds (Nat.lt_succ_self _)

lemma Agree.misses {s : List Char} (h : Agree N p q) (hs : s.length < N) :
    Misses p s ↔ Misses q s := by
  unfold Misses
  rw [(h s hs).1]

/-- What follows need only agree on the texts that the first parser can leave. -/
lemma Agree.bind_of_left {f g : α → Parser β} (h : Agree M p q)
    (hleft : ∀ s a r, s.length < M → Finds p s a r → r.length < N)
    (hf : ∀ a, Agree N (f a) (g a)) : Agree M (p >>= f) (q >>= g) := by
  intro s hs
  obtain ⟨heq, hle⟩ := h s hs
  constructor
  · rw [result_bind, result_bind, ← heq]
    refine Option.bind_congr fun x hx => ?_
    exact (hf x.1 x.2 (hleft s x.1 x.2 hs hx)).1
  · intro b r hb
    obtain ⟨a, t, ha, hb⟩ := finds_bind.mp hb
    exact ((hf a t (hleft s a t hs ha)).2 b r hb).trans (hle a t ha)

lemma Agree.bind {f g : α → Parser β} (h : Agree N p q) (hf : ∀ a, Agree N (f a) (g a)) :
    Agree N (p >>= f) (q >>= g) :=
  h.bind_of_left (fun s a r hs ha => ((h s hs).2 a r ha).trans_lt hs) hf

/-- Behind a parser that takes something, texts are shorter. -/
lemma Consumes.agree_bind {f g : α → Parser β} (hp : Consumes p)
    (hf : ∀ a, Agree N (f a) (g a)) : Agree (N + 1) (p >>= f) (p >>= g) := by
  refine (hp.shrinks.agree _).bind_of_left (fun s a r hs ha => ?_) hf
  have hlt := hp s a r ha
  omega

lemma Agree.orElse {p' q' : Parser α} (h : Agree N p q) (h' : Agree N p' q') :
    Agree N (orElse p p') (orElse q q') := by
  intro s hs
  obtain ⟨heq, hle⟩ := h s hs
  obtain ⟨heq', hle'⟩ := h' s hs
  constructor
  · rw [result_orElse, result_orElse, heq, heq']
  · intro a r ha
    rcases finds_orElse.mp ha with ha | ⟨-, ha⟩
    · exact hle a r ha
    · exact hle' a r ha

lemma agree_firstOf {ps qs : List (Parser α)} (h : List.Forall₂ (Agree N) ps qs) :
    Agree N (firstOf ps) (firstOf qs) := by
  induction h with
  | nil => exact shrinks_fail.agree N
  | cons h _ ih => exact h.orElse ih

lemma Agree.optional (h : Agree N p q) : Agree N (optional p) (optional q) :=
  (h.bind fun _ => agree_pure _ N).orElse (agree_pure _ N)

lemma Agree.upTo (h : Agree N p q) (n : Nat) : Agree N (upTo p n) (upTo q n) := by
  induction n with
  | zero => exact agree_pure _ N
  | succ n ih => exact (h.bind fun _ => ih.bind fun _ => agree_pure _ N).orElse (agree_pure _ N)

lemma Agree.many (h : Agree N p q) : Agree N (many p) (many q) :=
  fun s hs => h.upTo (s.length + 1) s hs

lemma Agree.rule (h : Agree N p q) : Agree N (rule p) (rule q) := by
  intro s hs
  have hskip := Layout.length_skip_le s
  obtain ⟨heq, hle⟩ := h (Layout.skip s) (by omega)
  refine ⟨by rw [result_rule, result_rule, heq], fun a r ha => ?_⟩
  exact (hle a r (finds_rule.mp ha)).trans hskip

lemma shrinks_symbol (mark : String) : Shrinks (symbol mark) := by
  intro s u r h
  have hskip := Layout.length_skip_le s
  rw [finds_symbol.mp h, List.length_append] at hskip
  omega

lemma shrinks_keyword (k : String) : Shrinks (keyword k) := by
  refine shrinks_lexeme fun s u r h => ?_
  unfold Lexeme.keyword? at h
  split at h
  next =>
    cases h
    exact (List.dropWhile_suffix _).length_le
  next => cases h

lemma Agree.after_symbol (mark : String) (h : Agree N p q) :
    Agree N (do symbol mark; p) (do symbol mark; q) :=
  ((shrinks_symbol mark).agree N).bind fun _ => h

lemma Agree.after_keyword (k : String) (h : Agree N p q) :
    Agree N (do keyword k; p) (do keyword k; q) :=
  ((shrinks_keyword k).agree N).bind fun _ => h

lemma Agree.commaList (h : Agree N p q) : Agree N (commaList p) (commaList q) :=
  h.bind fun _ => (h.after_symbol ",").many.bind fun _ => agree_pure _ N

lemma Agree.between {opening closing : String} (hopening : opening.toList ≠ [])
    (hclosing : closing.toList ≠ []) (h : Agree N p q) :
    Agree (N + 1) (between opening closing p) (between opening closing q) := by
  refine (consumes_symbol hopening).agree_bind fun _ => h.bind fun a => ?_
  exact Agree.bind ((consumes_symbol hclosing).shrinks.agree N) fun _ => agree_pure a N

section Knot

variable {layers : Parser α → Parser α} {within : Nat → Parser α}

/-- The parser reads only texts shorter than `n`. -/
def below (n : Nat) (p : Parser α) : Parser α := fun s => if s.length < n then p s else fail s

lemma finds_below {n : Nat} {s r : List Char} {a : α} :
    Finds (below n p) s a r ↔ s.length < n ∧ Finds p s a r := by
  unfold Finds below
  split_ifs with hs <;> simp [hs, fail]

lemma Shrinks.agree_below (hp : Shrinks p) (n : Nat) : Agree n (below n p) p := by
  intro s hs
  refine ⟨by rw [below, if_pos hs], fun a r ha => ?_⟩
  exact hp s a r (finds_below.mp ha).2

lemma agree_within (hlayers : ∀ {N p q}, Agree N p q → Agree (N + 1) (layers p) (layers q))
    (hsucc : ∀ n, within (n + 1) = layers (within n)) {n m : Nat} (hn : N ≤ n) (hm : N ≤ m) :
    Agree N (within n) (within m) := by
  induction N generalizing n m with
  | zero => exact fun s hs => absurd hs (Nat.not_lt_zero _)
  | succ N ih =>
    obtain ⟨n, rfl⟩ := Nat.exists_eq_add_of_le' (show 1 ≤ n by omega)
    obtain ⟨m, rfl⟩ := Nat.exists_eq_add_of_le' (show 1 ≤ m by omega)
    rw [hsucc, hsucc]
    exact hlayers (ih (by omega) (by omega))

/-- A bound above the length of the text is as good as no bound. -/
lemma agree_tied (hlayers : ∀ {N p q}, Agree N p q → Agree (N + 1) (layers p) (layers q))
    (hsucc : ∀ n, within (n + 1) = layers (within n)) {tied : Parser α}
    (htied : ∀ s, tied s = within (s.length + 1) s) (N : Nat) : Agree N tied (layers tied) := by
  intro s _
  have hnested : Agree s.length (within s.length) tied := by
    intro t ht
    rw [htied]
    exact agree_within hlayers hsucc (N := t.length + 1) ht le_rfl t (Nat.lt_succ_self _)
  have hs := hlayers hnested s (Nat.lt_succ_self _)
  rw [← hsucc] at hs
  unfold Finds
  rw [htied]
  exact hs

/-- A property of all that a parser reads, from what its layers read when nested pieces have the
property. The nested pieces are read by a parser that agrees with the whole one as far as they can
reach. -/
theorem forall_of_layers (hlayers : ∀ {N p q}, Agree N p q → Agree (N + 1) (layers p) (layers q))
    (hp : ∀ N, Agree N p (layers p)) {P : α → List Char → Prop}
    (hlayer : ∀ n sub, Agree n sub p → (∀ s a r, Finds sub s a r → P a r) →
      ∀ s a r, s.length ≤ n → Finds (layers sub) s a r → P a r)
    {s r : List Char} {a : α} (h : Finds p s a r) : P a r := by
  have hshrinks := shrinks_of_agree hp
  -- `n` bounds the text, and the nested pieces begin where less is left
  have hbound : ∀ n s a r, s.length < n → Finds p s a r → P a r := by
    intro n
    induction n with
    | zero => exact fun s a r hs => absurd hs (Nat.not_lt_zero _)
    | succ n ih =>
      intro s a r hs ha
      have hbelow := hshrinks.agree_below n
      refine hlayer n (below n p) hbelow ?_ s a r (Nat.lt_succ_iff.mp hs) ?_
      · intro t b u hb
        obtain ⟨ht, hb⟩ := finds_below.mp hb
        exact ih t b u ht hb
      · exact ((hlayers hbelow).finds hs).mpr ((finds_of_agree hp).mp ha)
  exact hbound (s.length + 1) s a r (Nat.lt_succ_self _) h

end Knot

end Parser

open Source.Parser

variable {N : Nat}

section Layers

variable {α : Type} {p q : Parser (Formed α)}

lemma agree_unaryLayer (node : UnOp → α → α) (h : Agree N p q) :
    Agree N (unaryLayer node p) (unaryLayer node q) :=
  (consumes_unaryOp.shrinks.many.agree N).bind fun _ => h.bind fun _ => agree_pure _ N

lemma agree_another {op : Parser BinOp} (hop : Consumes op) (h : Agree N p q) :
    Agree N (do let o ← op; let x ← p; return (o, x)) (do let o ← op; let x ← q; return (o, x)) :=
  (hop.shrinks.agree N).bind fun _ => h.bind fun _ => agree_pure _ N

lemma agree_binaryLayer (node : BinOp → α → α → α) {op : Parser BinOp} (hop : Consumes op)
    (h : Agree N p q) : Agree N (binaryLayer node op p) (binaryLayer node op q) :=
  h.bind fun _ => (agree_another hop h).many.bind fun _ => agree_pure _ N

end Layers

section Expressions

variable {p q : Parser (Formed Expr)}

lemma agree_indexSelector (h : Agree N p q) : Agree (N + 1) (indexSelector p) (indexSelector q) :=
  ((h.commaList.between (by decide) (by decide)).bind fun _ => agree_pure _ _).rule

lemma agree_accessOver (h : Agree N p q) : Agree (N + 1) (accessOver p) (accessOver q) := by
  refine Agree.rule ((shrinks_identifier.agree _).bind fun _ =>
    Agree.bind ?_ fun _ => agree_pure _ _)
  exact ((consumes_fieldSelector.shrinks.agree _).orElse (agree_indexSelector h)).many

lemma agree_callOver (h : Agree N p q) : Agree (N + 1) (callOver p) (callOver q) := by
  refine Agree.rule ((shrinks_identifier.agree _).bind fun _ =>
    Agree.bind ?_ fun _ => agree_pure _ _)
  exact h.commaList.optional.between (by decide) (by decide)

lemma agree_primary (h : Agree N p q) : Agree (N + 1) (primary p) (primary q) := by
  refine (agree_firstOf (.cons ?_ (.cons ?_ (.cons ?_ (.cons ?_ .nil))))).rule
  · exact h.between (by decide) (by decide)
  · exact shrinks_literal.agree _
  · exact agree_callOver h
  · exact (agree_accessOver h).bind fun _ => agree_pure _ _

lemma agree_expressionOver (h : Agree N p q) :
    Agree (N + 1) (expressionOver p) (expressionOver q) := by
  have hsum := agree_binaryLayer Expr.binary consumes_additionOp
    (agree_binaryLayer Expr.binary consumes_multiplicationOp
      (agree_unaryLayer Expr.unary (agree_primary h)))
  exact hsum.bind fun _ => (agree_another consumes_comparisonOp hsum).optional.bind fun _ =>
    agree_pure _ _

lemma agree_expression (N : Nat) : Agree N expression (expressionOver expression) :=
  agree_tied agree_expressionOver (fun _ => rfl) (fun _ => rfl) N

lemma shrinks_expression : Shrinks expression := shrinks_of_agree agree_expression

/-- An expression is read layer by layer, and so are the expressions in it. -/
theorem finds_expression {s r : List Char} {x : Formed Expr} :
    Finds expression s x r ↔ Finds (expressionOver expression) s x r :=
  finds_of_agree agree_expression

lemma shrinks_access : Shrinks access :=
  shrinks_of_agree fun N s hs => agree_accessOver (shrinks_expression.agree N) s (by omega)

end Expressions

section Constants

variable {p q : Parser (Formed ConstExpr)}

lemma agree_constPrimary (h : Agree N p q) : Agree (N + 1) (constPrimary p) (constPrimary q) := by
  refine (agree_firstOf (.cons ?_ (.cons ?_ (.cons ?_ (.cons ?_ .nil))))).rule
  · exact h.between (by decide) (by decide)
  · exact shrinks_literal.agree _
  · refine Agree.rule ((shrinks_identifier.agree _).bind fun _ => Agree.bind ?_ fun _ => agree_pure _ _)
    exact h.commaList.between (by decide) (by decide)
  · exact (shrinks_identifier.agree _).bind fun _ => agree_pure _ _

lemma agree_constExpressionOver (h : Agree N p q) :
    Agree (N + 1) (constExpressionOver p) (constExpressionOver q) := by
  have hproduct := agree_binaryLayer ConstExpr.binary consumes_multiplicationOp
    (agree_unaryLayer ConstExpr.unary (agree_constPrimary h))
  exact agree_binaryLayer ConstExpr.binary consumes_additionOp hproduct

lemma shrinks_constExpression : Shrinks constExpression :=
  shrinks_of_agree (agree_tied agree_constExpressionOver (fun _ => rfl) fun _ => rfl)

end Constants

section Statements

variable {p q : Parser (Formed Stmt)}

lemma agree_statementList (h : Agree N p q) : Agree N (statementList p) (statementList q) :=
  h.optional.bind fun _ => (h.optional.after_symbol ";").many.bind fun _ => agree_pure _ N

lemma agree_compoundOver (h : Agree N p q) : Agree (N + 1) (compoundOver p) (compoundOver q) := by
  refine Agree.rule ((consumes_keyword (by decide)).agree_bind fun _ => ?_)
  exact (agree_statementList h).bind fun _ => (agree_pure _ N).after_keyword "end"

lemma agree_ifOver (h : Agree N p q) : Agree (N + 1) (ifOver p) (ifOver q) := by
  refine Agree.rule ((consumes_keyword (by decide)).agree_bind fun _ => ?_)
  refine (shrinks_expression.agree N).bind fun _ => Agree.after_keyword "then" ?_
  exact h.bind fun _ => (h.after_keyword "else").optional.bind fun _ => agree_pure _ N

lemma agree_caseArm (h : Agree N p q) : Agree N (caseArm p) (caseArm q) := by
  refine Agree.rule ((shrinks_constExpression.commaList.agree N).bind fun _ => ?_)
  exact (h.bind fun _ => agree_pure _ N).after_symbol ":"

lemma agree_caseDefault (h : Agree N p q) : Agree N (caseDefault p) (caseDefault q) := by
  refine Agree.rule (Agree.bind (Shrinks.agree ?_ N) fun _ => ?_)
  · exact (shrinks_keyword "else").orElse (shrinks_keyword "otherwise")
  · exact (agree_statementList h).bind fun _ => agree_pure _ N

lemma agree_caseOver (h : Agree N p q) : Agree (N + 1) (caseOver p) (caseOver q) := by
  have hmark : Agree N (optional (symbol ";")) (optional (symbol ";")) :=
    (consumes_symbol (by decide)).shrinks.optional.agree N
  refine Agree.rule ((consumes_keyword (by decide)).agree_bind fun _ => ?_)
  refine (shrinks_expression.agree N).bind fun _ => Agree.after_keyword "of" ?_
  refine (agree_caseArm h).bind fun _ => ((agree_caseArm h).after_symbol ";").many.bind fun _ => ?_
  refine hmark.bind fun _ => (agree_caseDefault h).optional.bind fun _ => hmark.bind fun _ => ?_
  exact (agree_pure _ N).after_keyword "end"

lemma agree_whileOver (h : Agree N p q) : Agree (N + 1) (whileOver p) (whileOver q) := by
  refine Agree.rule ((consumes_keyword (by decide)).agree_bind fun _ => ?_)
  refine (shrinks_expression.agree N).bind fun _ => Agree.after_keyword "do" ?_
  exact h.bind fun _ => agree_pure _ N

lemma agree_repeatOver (h : Agree N p q) : Agree (N + 1) (repeatOver p) (repeatOver q) := by
  refine Agree.rule ((consumes_keyword (by decide)).agree_bind fun _ => ?_)
  refine (agree_statementList h).bind fun _ => Agree.after_keyword "until" ?_
  exact (shrinks_expression.agree N).bind fun _ => agree_pure _ N

lemma agree_forOver (h : Agree N p q) : Agree (N + 1) (forOver p) (forOver q) := by
  have hdirection : Shrinks (orElse (worded "downto" true) (worded "to" false)) :=
    (consumes_worded (by decide) _).shrinks.orElse (consumes_worded (by decide) _).shrinks
  refine Agree.rule ((consumes_keyword (by decide)).agree_bind fun _ => ?_)
  refine (shrinks_identifier.agree N).bind fun _ => Agree.after_symbol ":=" ?_
  refine (shrinks_expression.agree N).bind fun _ => (hdirection.agree N).bind fun _ => ?_
  refine (shrinks_expression.agree N).bind fun _ => Agree.after_keyword "do" ?_
  exact h.bind fun _ => agree_pure _ N

lemma shrinks_count : Shrinks (lexeme Lexeme.count?) := by
  refine shrinks_lexeme fun s x r h => ?_
  obtain ⟨⟨ds, u⟩, hds, hu⟩ := Option.map_eq_some_iff.mp h
  cases hu
  exact Lexeme.length_of_run? hds

lemma shrinks_writeArg : Shrinks writeArg := by
  have hsign : Shrinks widthSign :=
    ((consumes_marked (by decide) _).shrinks.orElse (consumes_marked (by decide) _).shrinks).rule
  refine shrinks_expression.bind fun _ => Shrinks.bind (Shrinks.optional (Shrinks.rule ?_))
    fun _ => shrinks_pure _
  refine (shrinks_symbol ":").bind fun _ => hsign.optional.bind fun _ =>
    shrinks_count.bind fun _ => ?_
  refine Shrinks.bind (Shrinks.optional ?_) fun _ => shrinks_pure _
  exact (shrinks_symbol ":").bind fun _ => shrinks_count

/-- The statements that have no statements in them. -/
def simpleStatements : List (Parser (Formed Stmt)) :=
  [writelnStatement, writeStatement, readlnStatement, readStatement, assignment, callStatement]

lemma shrinks_simple : ∀ p ∈ simpleStatements, Shrinks p := by
  have hin : ∀ {α : Type} {p : Parser α}, Shrinks p → Shrinks (between "(" ")" p) :=
    fun hp => (hp.between (by decide) (by decide)).shrinks
  simp only [simpleStatements, List.forall_mem_cons]
  refine ⟨?_, ?_, ?_, ?_, ?_, ?_, List.forall_mem_nil _⟩
  · exact ((shrinks_keyword _).bind fun _ =>
      (hin shrinks_writeArg.commaList.optional).optional.bind fun _ => shrinks_pure _).rule
  · exact ((shrinks_keyword _).bind fun _ =>
      (hin shrinks_writeArg.commaList).bind fun _ => shrinks_pure _).rule
  · exact ((shrinks_keyword _).bind fun _ =>
      (hin shrinks_access.commaList).optional.bind fun _ => shrinks_pure _).rule
  · exact ((shrinks_keyword _).bind fun _ =>
      (hin shrinks_access.commaList).bind fun _ => shrinks_pure _).rule
  · exact (shrinks_access.bind fun _ => (shrinks_symbol _).bind fun _ =>
      shrinks_expression.bind fun _ => shrinks_pure _).rule
  · exact (shrinks_identifier.bind fun _ =>
      (hin shrinks_expression.commaList.optional).optional.bind fun _ => shrinks_pure _).rule

lemma agree_statementOver (h : Agree N p q) :
    Agree (N + 1) (statementOver p) (statementOver q) := by
  have hsimple : List.Forall₂ (Agree (N + 1)) simpleStatements simpleStatements :=
    List.forall₂_same.mpr fun p hp => (shrinks_simple p hp).agree _
  exact agree_firstOf (.cons (agree_compoundOver h) (.cons (agree_ifOver h)
    (.cons (agree_caseOver h) (.cons (agree_whileOver h) (.cons (agree_repeatOver h)
      (.cons (agree_forOver h) hsimple))))))

lemma agree_statement (N : Nat) : Agree N statement (statementOver statement) :=
  agree_tied agree_statementOver (fun _ => rfl) (fun _ => rfl) N

end Statements

end PascalJvm.Source
