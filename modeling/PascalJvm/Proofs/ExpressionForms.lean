import PascalJvm.Proofs.SameText

/-!
# Forms of expressions

A property of expressions holds of all that the grammar reads, if every form of expression has it
when its parts have it; and so for constant expressions. Of a literal the grammar tells more than
its form: a character that is written by number has a code of 16 bits, and in a constant
expression a quoted text of one character is a character as well, whatever its code.
-/
namespace PascalJvm.Source

open Source.Parser Formed

section Layers

variable {α : Type} {P : α → Prop} {p : Parser (Formed α)}

lemma unaryLayer_yields {node : UnOp → α → α} (hnode : ∀ op x, P x → P (node op x))
    (hp : p.Yields (Holds P)) : (unaryLayer node p).Yields (Holds P) := by
  have happly : ∀ ops x, P x → P (applyUnary node ops x) := by
    intro ops x hx
    induction ops with
    | nil => exact hx
    | cons op ops ih =>
      cases op with
      | none => exact ih
      | some op => exact hnode op _ ih
  exact .after fun ops => hp.bind fun x hx => yields_pure (hx.map (happly ops))

lemma joinLeft_holds {node : BinOp → α → α → α} (hnode : ∀ op a b, P a → P b → P (node op a b))
    {more : List (BinOp × Formed α)} (hmore : ∀ x ∈ more, Holds P x.2) {first : Formed α}
    (hfirst : Holds P first) : Holds P (joinLeft node first more) := by
  induction more generalizing first with
  | nil => exact hfirst
  | cons x more ih =>
    obtain ⟨hx, hmore⟩ := List.forall_mem_cons.mp hmore
    refine ih hmore fun c hc => ?_
    simp only [bind_eq_ok, pure_eq_ok] at hc
    obtain ⟨a, ha, b, hb, rfl⟩ := hc
    exact hnode _ a b (hfirst a ha) (hx b hb)

lemma another_yields {op : Parser BinOp} (hp : p.Yields (Holds P)) :
    (do let o ← op; let x ← p; return (o, x)).Yields fun x => Holds P x.2 :=
  .after fun _ => hp.bind fun _ hx => yields_pure hx

lemma binaryLayer_yields {node : BinOp → α → α → α} {op : Parser BinOp}
    (hnode : ∀ op a b, P a → P b → P (node op a b)) (hp : p.Yields (Holds P)) :
    (binaryLayer node op p).Yields (Holds P) :=
  hp.bind fun _ hfirst => (another_yields hp).many.bind fun _ hmore =>
    yields_pure (joinLeft_holds hnode hmore hfirst)

lemma literal_yields {bool : Bool → α} {real : Single → α} {int : Int32 → α}
    {text : List Char → α} {char : Nat → α} (hbool : ∀ b, P (bool b)) (hreal : ∀ x, P (real x))
    (hint : ∀ i, P (int i)) (htext : ∀ t, P (text t)) (hchar : ∀ c ≤ 0xFFFF, P (char c)) :
    (literal bool real int text char).Yields (Holds P) := by
  have hok : ∀ {a : α}, P a → Holds P (.ok a) := by
    rintro a ha b ⟨⟩
    exact ha
  refine yields_firstOf fun p hp => ?_
  simp only [List.mem_cons, List.not_mem_nil, or_false] at hp
  rcases hp with rfl | rfl | rfl | rfl | rfl
  · exact .after fun b => yields_pure (hok (hbool b))
  · exact .after fun x => yields_pure (hok (hreal x))
  · refine .after fun i => yields_pure fun a ha => ?_
    obtain ⟨i, -, rfl⟩ := map_eq_ok.mp ha
    exact hint i
  · exact .after fun t => yields_pure (hok (htext t))
  · exact yields_charCode.bind fun c hc => yields_pure (hc.map hchar)

end Layers

/-- One condition for each form of expression. -/
structure ExpressionRules (P : Expr → Prop) : Prop where
  int (i : Int32) : P (.int i)
  real (x : Single) : P (.real x)
  bool (b : Bool) : P (.bool b)
  char (c : Nat) (hc : c ≤ 0xFFFF) : P (.char c)
  text (t : String) : P (.text t)
  name (n : String) : P (.name n)
  call (f : String) (args : List Expr) (hargs : ∀ e ∈ args, P e) : P (.call f args)
  field (e : Expr) (f : String) (he : P e) : P (.field e f)
  index (e i : Expr) (he : P e) (hi : P i) : P (.index e i)
  unary (op : UnOp) (x : Expr) (hx : P x) : P (.unary op x)
  binary (op : BinOp) (a b : Expr) (ha : P a) (hb : P b) : P (.binary op a b)

namespace ExpressionRules

variable {P : Expr → Prop} (hP : ExpressionRules P) {sub : Parser (Formed Expr)}

include hP

/-- A chain of selectors whose positions have the property. -/
lemma of_selectors {sels : List Selector}
    (hsels : ∀ sel ∈ sels, ∀ is, sel = .index is → ∀ i ∈ is, P i) {e : Expr} (he : P e) :
    P (sels.foldl Selector.apply e) := by
  have hpositions : ∀ is : List Expr, (∀ i ∈ is, P i) → ∀ e, P e → P (is.foldl .index e) := by
    intro is
    induction is with
    | nil => exact fun _ e he => he
    | cons i is ih =>
      intro his e he
      obtain ⟨hi, his⟩ := List.forall_mem_cons.mp his
      exact ih his _ (hP.index e i he hi)
  induction sels generalizing e with
  | nil => exact he
  | cons sel sels ih =>
    obtain ⟨hsel, hsels⟩ := List.forall_mem_cons.mp hsels
    refine ih hsels ?_
    cases sel with
    | field f => exact hP.field e f he
    | index is => exact hpositions is (hsel is rfl) e he

lemma accessOver_yields (hsub : sub.Yields (Holds P)) :
    (accessOver sub).Yields (Holds fun a => P a.toExpr) := by
  have hselector : (orElse fieldSelector (indexSelector sub)).Yields
      (Holds fun sel => ∀ is, sel = .index is → ∀ i ∈ is, P i) := by
    refine Yields.orElse (Yields.rule (.after fun _ => .after fun f => yields_pure ?_))
      (Yields.rule (hsub.commaList.between.bind fun is his => yields_pure ?_))
    · rintro sel ⟨⟩
      exact nofun
    · intro sel hsel
      simp only [bind_eq_ok] at hsel
      obtain ⟨positions, hpositions, hsel⟩ := hsel
      split_ifs at hsel
      cases hsel
      rintro _ ⟨⟩
      exact holds_all his positions hpositions
  refine Yields.rule (.after fun base => hselector.many.bind fun xs hxs => yields_pure ?_)
  intro a ha
  simp only [bind_eq_ok, pure_eq_ok] at ha
  obtain ⟨sels, hsels, rfl⟩ := ha
  exact of_selectors hP (holds_all hxs sels hsels) (hP.name base)

lemma callOver_yields (hsub : sub.Yields (Holds P)) : (callOver sub).Yields (Holds P) := by
  refine Yields.rule (.after fun f => hsub.commaList.optional.between.bind fun args hargs => ?_)
  refine yields_pure fun e he => ?_
  simp only [bind_eq_ok, pure_eq_ok] at he
  obtain ⟨as, has, rfl⟩ := he
  refine hP.call f as (holds_all ?_ as has)
  cases args with
  | none => exact List.forall_mem_nil _
  | some xs => exact hargs xs rfl

lemma primary_yields (hsub : sub.Yields (Holds P)) : (primary sub).Yields (Holds P) := by
  refine Yields.rule (yields_firstOf fun p hp => ?_)
  simp only [List.mem_cons, List.not_mem_nil, or_false] at hp
  rcases hp with rfl | rfl | rfl | rfl
  · exact hsub.between
  · exact literal_yields hP.bool hP.real hP.int (fun _ => hP.text _) hP.char
  · exact callOver_yields hP hsub
  · exact (accessOver_yields hP hsub).bind fun a ha => yields_pure (ha.map fun _ h => h)

lemma expressionOver_yields (hsub : sub.Yields (Holds P)) :
    (expressionOver sub).Yields (Holds P) := by
  have hsum : (binaryLayer .binary additionOp (binaryLayer .binary multiplicationOp
      (unaryLayer .unary (primary sub)))).Yields (Holds P) :=
    binaryLayer_yields hP.binary (binaryLayer_yields hP.binary
      (unaryLayer_yields hP.unary (primary_yields hP hsub)))
  refine hsum.bind fun a ha => (another_yields hsum).optional.bind fun more hmore => yields_pure ?_
  cases more with
  | none => exact ha
  | some x =>
    intro e he
    simp only [bind_eq_ok, pure_eq_ok] at he
    obtain ⟨c, hc, d, hd, rfl⟩ := he
    exact hP.binary _ c d (ha c hc) (hmore x rfl d hd)

/-- An expression of the grammar has every property that goes from the parts of expressions to the
whole. -/
theorem expression_yields : expression.Yields (Holds P) := by
  have hwithin : ∀ n, (expressionWithin n).Yields (Holds P) := by
    intro n
    induction n with
    | zero => exact yields_fail
    | succ n ih => exact expressionOver_yields hP ih
  exact fun s => hwithin (s.length + 1) s

lemma access_yields : access.Yields (Holds fun a => P a.toExpr) :=
  accessOver_yields hP (expression_yields hP)

end ExpressionRules

/-- One condition for each form of constant expression. -/
structure ConstRules (K : ConstExpr → Prop) : Prop where
  int (i : Int32) : K (.int i)
  real (x : Single) : K (.real x)
  bool (b : Bool) : K (.bool b)
  code (c : Nat) (hc : c ≤ 0xFFFF) : K (.char c)
  letter (c : Char) : K (.char c.toNat)
  text (t : String) : K (.text t)
  name (n : String) : K (.name n)
  call (f : String) (args : List ConstExpr) (hargs : ∀ e ∈ args, K e) : K (.call f args)
  unary (op : UnOp) (x : ConstExpr) (hx : K x) : K (.unary op x)
  binary (op : BinOp) (a b : ConstExpr) (ha : K a) (hb : K b) : K (.binary op a b)

namespace ConstRules

variable {K : ConstExpr → Prop} (hK : ConstRules K) {sub : Parser (Formed ConstExpr)}

include hK

lemma constPrimary_yields (hsub : sub.Yields (Holds K)) : (constPrimary sub).Yields (Holds K) := by
  have htext : ∀ t, K (constText t) := by
    intro t
    unfold constText
    split
    next c => exact hK.letter c
    next => exact hK.text _
  refine Yields.rule (yields_firstOf fun p hp => ?_)
  simp only [List.mem_cons, List.not_mem_nil, or_false] at hp
  rcases hp with rfl | rfl | rfl | rfl
  · exact hsub.between
  · exact literal_yields hK.bool hK.real hK.int htext hK.code
  · refine Yields.rule (.after fun f => hsub.commaList.between.bind fun args hargs => ?_)
    refine yields_pure fun e he => ?_
    simp only [bind_eq_ok, pure_eq_ok] at he
    obtain ⟨as, has, rfl⟩ := he
    exact hK.call f as (holds_all hargs as has)
  · refine .after fun n => yields_pure ?_
    rintro e ⟨⟩
    exact hK.name n

theorem constExpression_yields : constExpression.Yields (Holds K) := by
  have hwithin : ∀ n, (constExpressionWithin n).Yields (Holds K) := by
    intro n
    induction n with
    | zero => exact yields_fail
    | succ n ih =>
      exact binaryLayer_yields hK.binary (binaryLayer_yields hK.binary
        (unaryLayer_yields hK.unary (constPrimary_yields hK ih)))
  exact fun s => hwithin (s.length + 1) s

end ConstRules

end PascalJvm.Source
