import PascalJvm.Proofs.Bodies
import PascalJvm.Proofs.Nesting

/-!
# Forms of statements

A property of statements and of the text behind them holds of all that the grammar reads, if every
form of statement has it when its parts have it (`StatementRules.of_statement`). Of a conditional
the grammar tells more than its parts: an `else` follows the statement after `then` exactly if the
conditional has an `else` part, since it takes one whenever it can. In particular the expressions
and labels of every statement in a program text are pieces of the grammar (`written_rules`).
-/
namespace PascalJvm.Source

open Source.Parser Formed

/-- The parser reads the piece from some text. -/
def Produces {α : Type} (p : Parser (Formed α)) (a : α) : Prop := ∃ s r, Finds p s (.ok a) r

lemma yields_produced {α : Type} (p : Parser (Formed α)) : p.Yields (Holds (Produces p)) := by
  intro s x r h a ha
  exact ⟨s, r, ha ▸ h⟩

lemma Produces.holds {α : Type} {p : Parser (Formed α)} {P : α → Prop} {a : α} (h : Produces p a)
    (hp : p.Yields (Holds P)) : P a := by
  obtain ⟨s, r, h⟩ := h
  exact hp s (.ok a) r h a rfl

/-- The second part of a conditional. -/
def elsePart : Parser (Formed Stmt) := do keyword "else"; statement

/-- One condition for each form of statement. The statements of a list may have any text behind
them, and the last part of a statement has the same behind it as the whole. -/
structure StatementRules (Q : Stmt → List Char → Prop) : Prop where
  compound {body : List Stmt} {r : List Char} (hbody : ∀ x ∈ body, ∃ t, Q x t) :
    Q (.compound body) r
  ifThen {cond : Expr} {yes : Stmt} {r : List Char} (hcond : Produces expression cond)
    (hyes : Q yes r) (hmiss : Misses elsePart r) : Q (.ifThen cond yes none) r
  ifElse {cond : Expr} {yes no : Stmt} {t r : List Char} (hcond : Produces expression cond)
    (hyes : Q yes t) (helse : ¬ Misses elsePart t) (hno : Q no r) :
    Q (.ifThen cond yes (some no)) r
  caseOf {selector : Expr} {arms : List (List ConstExpr × Stmt)} {otherwise : Option Stmt}
    {r : List Char} (hselector : Produces expression selector)
    (harms : ∀ arm ∈ arms, (∀ k ∈ arm.1, Produces constExpression k) ∧ ∃ t, Q arm.2 t)
    (hotherwise : ∀ x ∈ otherwise, ∃ t, Q x t) : Q (.caseOf selector arms otherwise) r
  whileDo {cond : Expr} {body : Stmt} {r : List Char} (hcond : Produces expression cond)
    (hbody : Q body r) : Q (.whileDo cond body) r
  repeatUntil {body : List Stmt} {cond : Expr} {r : List Char} (hbody : ∀ x ∈ body, ∃ t, Q x t)
    (hcond : Produces expression cond) : Q (.repeatUntil body cond) r
  forDo {counter : String} {first last : Expr} {down : Bool} {body : Stmt} {r : List Char}
    (hfirst : Produces expression first) (hlast : Produces expression last) (hbody : Q body r) :
    Q (.forDo counter first last down body) r
  assign {target : Access} {value : Expr} {r : List Char} (htarget : Produces access target)
    (hvalue : Produces expression value) : Q (.assign target value) r
  call {routine : String} {args : List Expr} {r : List Char}
    (hargs : ∀ e ∈ args, Produces expression e) : Q (.call routine args) r
  read {line : Bool} {targets : List Access} {r : List Char}
    (htargets : ∀ a ∈ targets, Produces access a) : Q (.read line targets) r
  write {line : Bool} {args : List WriteArg} {r : List Char}
    (hargs : ∀ a ∈ args, Produces expression a.expr) : Q (.write line args) r

namespace StatementRules

variable {Q : Stmt → List Char → Prop} (hQ : StatementRules Q)

section Simple

lemma yields_writeArg : writeArg.Yields (Holds fun a => Produces expression a.expr) := by
  refine (yields_produced expression).bind fun value hvalue => .after fun width => yields_pure ?_
  intro a ha
  simp only [bind_eq_ok, pure_eq_ok] at ha
  obtain ⟨e, he, w, -, rfl⟩ := ha
  exact hvalue e he

/-- A statement that is a keyword or a name with a list behind it. -/
lemma holds_list {α : Type} {P : α → Prop} {f : List α → Stmt} {xs : List (Formed α)}
    (hxs : ∀ x ∈ xs, Holds P x) (hf : ∀ as, (∀ a ∈ as, P a) → ∀ r, Q (f as) r) :
    Holds (fun x => ∀ r, Q x r) (Formed.all xs >>= fun as => return f as) := by
  intro x hx
  simp only [bind_eq_ok, pure_eq_ok] at hx
  obtain ⟨as, has, rfl⟩ := hx
  exact hf as (holds_all hxs as has)

include hQ

lemma of_simple : ∀ p ∈ simpleStatements, p.Yields (Holds fun x => ∀ r, Q x r) := by
  have hjoin : ∀ {α : Type} {P : α → Prop} {args : Option (Option (List α))},
      (∀ xs ∈ args, ∀ ys ∈ xs, ∀ y ∈ ys, P y) → ∀ y ∈ args.join.getD [], P y := by
    intro α P args h y hy
    cases args with
    | none => cases hy
    | some xs =>
      cases xs with
      | none => cases hy
      | some ys => exact h _ rfl ys rfl y hy
  simp only [simpleStatements, List.forall_mem_cons]
  refine ⟨?_, ?_, ?_, ?_, ?_, ?_, List.forall_mem_nil _⟩
  · refine Yields.rule (.after fun _ => Yields.bind
      yields_writeArg.commaList.optional.between.optional fun args hargs => yields_pure ?_)
    exact holds_list (hjoin hargs) fun as has r => hQ.write has
  · refine Yields.rule (.after fun _ => yields_writeArg.commaList.between.bind fun args hargs => ?_)
    exact yields_pure (holds_list hargs fun as has r => hQ.write has)
  · refine Yields.rule (.after fun _ => Yields.bind
      (yields_produced access).commaList.between.optional fun targets htargets => yields_pure ?_)
    refine holds_list (fun x hx => ?_) fun as has r => hQ.read has
    cases targets with
    | none => cases hx
    | some xs => exact htargets xs rfl x hx
  · refine Yields.rule (.after fun _ =>
      (yields_produced access).commaList.between.bind fun targets htargets => ?_)
    exact yields_pure (holds_list htargets fun as has r => hQ.read has)
  · refine Yields.rule ((yields_produced access).bind fun target htarget => .after fun _ => ?_)
    refine (yields_produced expression).bind fun value hvalue => yields_pure ?_
    intro x hx r
    simp only [bind_eq_ok, pure_eq_ok] at hx
    obtain ⟨a, ha, e, he, rfl⟩ := hx
    exact hQ.assign (htarget a ha) (hvalue e he)
  · refine Yields.rule (.after fun _ => Yields.bind
      (yields_produced expression).commaList.optional.between.optional fun args hargs => ?_)
    refine yields_pure ?_
    exact holds_list (hjoin hargs) fun as has r => hQ.call has

end Simple

section Nested

variable {sub : Parser (Formed Stmt)} {n : Nat} {s r : List Char} {x : Stmt}
  (hagree : Agree n sub statement) (hsub : ∀ s y r, Finds sub s y r → Holds (fun x => Q x r) y)

include hsub in
lemma yields_somewhere : sub.Yields (Holds fun x => ∃ t, Q x t) :=
  fun s y r hy x hx => ⟨r, hsub s y r hy x hx⟩

include hsub in
lemma of_caseArm : (caseArm sub).Yields
    (Holds fun arm => (∀ k ∈ arm.1, Produces constExpression k) ∧ ∃ t, Q arm.2 t) := by
  refine Yields.rule ((yields_produced constExpression).commaList.bind fun ks hks =>
    .after fun _ => ?_)
  refine (yields_somewhere hsub).bind fun body hbody => yields_pure ?_
  intro arm harm
  simp only [bind_eq_ok, pure_eq_ok] at harm
  obtain ⟨as, has, y, hy, rfl⟩ := harm
  exact ⟨holds_all hks as has, hbody y hy⟩

include hQ hsub

lemma of_compound (h : Finds (compoundOver sub) s (.ok x) r) : Q x r := by
  have hlist := statementList_yields (yields_somewhere hsub)
  simp only [compoundOver, finds_rule, finds_bind, finds_pure] at h
  obtain ⟨-, t, -, body, u, hbody, -, v, -, hx, rfl⟩ := h
  obtain ⟨stmts, hstmts, rfl⟩ := map_eq_ok.mp hx
  exact hQ.compound (hlist t body u hbody stmts hstmts)

include hagree in
lemma of_if (hs : s.length ≤ n) (h : Finds (ifOver sub) s (.ok x) r) : Q x r := by
  rw [ifOver, finds_rule] at h
  obtain ⟨_, t, hif, h⟩ := finds_bind.mp h
  obtain ⟨cond, u, hcond, h⟩ := finds_bind.mp h
  obtain ⟨_, v, hthen, h⟩ := finds_bind.mp h
  obtain ⟨yes, w, hyes, h⟩ := finds_bind.mp h
  obtain ⟨no, z, hno, h⟩ := finds_bind.mp h
  obtain ⟨hx, rfl⟩ := finds_pure.mp h
  -- behind `if` the text is short enough for `sub` to be as good as `statement`
  have hv : v.length < n := by
    have hskip := Layout.length_skip_le s
    have hlt := consumes_keyword (by decide) _ _ _ hif
    have hle := shrinks_expression _ _ _ hcond
    have hle' := shrinks_keyword _ _ _ _ hthen
    omega
  have hw : w.length < n := ((hagree v hv).2 yes w hyes).trans_lt hv
  have helse : Misses (do keyword "else"; sub) w ↔ Misses elsePart w :=
    (hagree.after_keyword "else").misses hw
  simp only [bind_eq_ok, pure_eq_ok] at hx
  obtain ⟨c, rfl, y, rfl, o, ho, rfl⟩ := hx
  have hc : Produces expression c := ⟨t, u, hcond⟩
  have hy := hsub v _ w hyes y rfl
  rcases finds_optional.mp hno with ⟨other, rfl, hother⟩ | ⟨hmiss, rfl, rfl⟩
  · obtain ⟨y', hy', rfl⟩ := map_eq_ok.mp ho
    have hfound : ¬ Misses elsePart w := fun hmiss => hother.not_misses (helse.mpr hmiss)
    obtain ⟨-, t', -, hother⟩ := finds_bind.mp hother
    exact hQ.ifElse hc hy hfound (hsub t' other z hother y' hy')
  · cases ho
    exact hQ.ifThen hc hy (helse.mp hmiss)

lemma of_caseDefault : (caseDefault sub).Yields (Holds fun x => ∃ t, Q x t) := by
  refine Yields.rule (.after fun _ => ?_)
  refine (statementList_yields (yields_somewhere hsub)).bind fun body hbody => yields_pure ?_
  exact hbody.map fun _ hstmts => ⟨[], hQ.compound hstmts⟩

lemma of_case (h : Finds (caseOver sub) s (.ok x) r) : Q x r := by
  have harm := of_caseArm hsub
  simp only [caseOver, finds_rule, finds_bind, finds_pure] at h
  obtain ⟨-, t, -, selector, u, hselector, -, v, -, first, w, hfirst, more, y, hmore, -, z, -,
    otherwise, t', hotherwise, -, u', -, -, v', -, hx, rfl⟩ := h
  simp only [bind_eq_ok, pure_eq_ok] at hx
  obtain ⟨e, rfl, arms, harms, o, ho, rfl⟩ := hx
  refine hQ.caseOf ⟨t, u, hselector⟩ (holds_all (List.forall_mem_cons.mpr ⟨?_, ?_⟩) arms harms) ?_
  · exact harm v first w hfirst
  · exact Yields.many (.after fun _ => harm) w more y hmore
  · intro stmt hstmt
    cases otherwise with
    | none =>
      cases ho
      cases hstmt
    | some d =>
      obtain ⟨y', hy', rfl⟩ := map_eq_ok.mp ho
      obtain rfl := Option.mem_some_iff.mp hstmt
      exact (of_caseDefault hQ hsub).optional z _ t' hotherwise d rfl _ hy'

lemma of_while (h : Finds (whileOver sub) s (.ok x) r) : Q x r := by
  simp only [whileOver, finds_rule, finds_bind, finds_pure] at h
  obtain ⟨-, t, -, cond, u, hcond, -, v, -, body, w, hbody, hx, rfl⟩ := h
  simp only [bind_eq_ok, pure_eq_ok] at hx
  obtain ⟨c, rfl, y, rfl, rfl⟩ := hx
  exact hQ.whileDo ⟨t, u, hcond⟩ (hsub v _ w hbody y rfl)

lemma of_repeat (h : Finds (repeatOver sub) s (.ok x) r) : Q x r := by
  have hlist := statementList_yields (yields_somewhere hsub)
  simp only [repeatOver, finds_rule, finds_bind, finds_pure] at h
  obtain ⟨-, t, -, body, u, hbody, -, v, -, cond, w, hcond, hx, rfl⟩ := h
  simp only [bind_eq_ok, pure_eq_ok] at hx
  obtain ⟨stmts, hstmts, c, rfl, rfl⟩ := hx
  exact hQ.repeatUntil (hlist t body u hbody stmts hstmts) ⟨v, w, hcond⟩

lemma of_for (h : Finds (forOver sub) s (.ok x) r) : Q x r := by
  simp only [forOver, finds_rule, finds_bind, finds_pure] at h
  obtain ⟨-, t, -, counter, u, -, -, v, -, first, w, hfirst, down, y, -, last, z, hlast, -, t', -,
    body, u', hbody, hx, rfl⟩ := h
  simp only [bind_eq_ok, pure_eq_ok] at hx
  obtain ⟨a, rfl, b, rfl, c, rfl, rfl⟩ := hx
  exact hQ.forDo ⟨v, w, hfirst⟩ ⟨y, z, hlast⟩ (hsub t' _ u' hbody c rfl)

end Nested

include hQ

/-- A statement of the grammar has every property that goes from the parts of statements to the
whole. -/
theorem of_statement {s r : List Char} {x : Stmt} (h : Finds statement s (.ok x) r) : Q x r := by
  have hall : ∀ {s : List Char} {y : Formed Stmt} {r : List Char}, Finds statement s y r →
      Holds (fun x => Q x r) y := by
    refine forall_of_layers (P := fun y r => Holds (fun x => Q x r) y) agree_statementOver
      agree_statement ?_
    intro n sub hagree hsub s y r hs hy x hx
    subst hx
    change Finds (firstOf (compoundOver sub :: ifOver sub :: caseOver sub :: whileOver sub ::
      repeatOver sub :: forOver sub :: simpleStatements)) s (.ok x) r at hy
    simp only [finds_firstOf_cons] at hy
    rcases hy with hy | ⟨-, hy | ⟨-, hy | ⟨-, hy | ⟨-, hy | ⟨-, hy | ⟨-, hy⟩⟩⟩⟩⟩⟩
    · exact of_compound hQ hsub hy
    · exact of_if hQ hagree hsub hs hy
    · exact of_case hQ hsub hy
    · exact of_while hQ hsub hy
    · exact of_repeat hQ hsub hy
    · exact of_for hQ hsub hy
    · exact yields_firstOf (of_simple hQ) s _ r hy x rfl r
  exact hall h x rfl

/-- The body of a block is a statement as well. -/
lemma of_body {x : Stmt} (h : Produces (compoundOver statement) x) : ∃ r, Q x r := by
  obtain ⟨s, r, h⟩ := h
  refine ⟨r, of_compound hQ (fun s y r hy x hx => ?_) h⟩
  subst hx
  exact of_statement hQ hy

end StatementRules

section Parts

/-- The statements that a statement consists of. -/
def Stmt.parts : Stmt → List Stmt
  | .compound body | .repeatUntil body _ => body
  | .ifThen _ yes no => yes :: no.toList
  | .caseOf _ arms otherwise => arms.map Prod.snd ++ otherwise.toList
  | .whileDo _ body | .forDo _ _ _ _ body => [body]
  | _ => []

/-- The first statement is the second one, or stands somewhere in it. -/
def Stmt.Within : Stmt → Stmt → Prop := Relation.ReflTransGen fun x y => x ∈ y.parts

/-- All statements in the statement have the property. -/
def Stmt.Throughout (R : Stmt → Prop) (x : Stmt) : Prop := ∀ y : Stmt, y.Within x → R y

lemma throughout_of_parts {R : Stmt → Prop} {x : Stmt} (hx : R x)
    (hparts : ∀ y ∈ x.parts, y.Throughout R) : x.Throughout R := by
  intro y hy
  rcases Relation.ReflTransGen.cases_tail hy with rfl | ⟨z, hyz, hz⟩
  · exact hx
  · exact hparts z hz y hyz

/-- The expressions of a statement itself. The variable of an assignment or an input stands there
as the expression for its value. -/
def Stmt.exprs : Stmt → List Expr
  | .compound _ => []
  | .ifThen cond _ _ => [cond]
  | .caseOf selector _ _ => [selector]
  | .whileDo cond _ => [cond]
  | .repeatUntil _ cond => [cond]
  | .forDo _ first last _ _ => [first, last]
  | .assign target value => [target.toExpr, value]
  | .call _ args => args
  | .read _ targets => targets.map Access.toExpr
  | .write _ args => args.map WriteArg.expr

/-- The labels of a case statement itself. -/
def Stmt.labels : Stmt → List ConstExpr
  | .caseOf _ arms _ => arms.flatMap Prod.fst
  | _ => []

/-- The expressions and labels of the statement itself are pieces of the grammar. -/
def Stmt.Written (x : Stmt) : Prop :=
  (∀ e ∈ x.exprs, Produces expression e ∨ ∃ a, Produces access a ∧ e = a.toExpr) ∧
    ∀ k ∈ x.labels, Produces constExpression k

/-- So are those of all statements inside it. -/
lemma written_rules : StatementRules fun x _ => x.Throughout Stmt.Written where
  compound hbody :=
    throughout_of_parts ⟨List.forall_mem_nil _, List.forall_mem_nil _⟩ fun x hx =>
      (hbody x hx).elim fun _ h => h
  ifThen hcond hyes _ :=
    throughout_of_parts ⟨List.forall_mem_singleton.mpr (.inl hcond), List.forall_mem_nil _⟩
      (List.forall_mem_singleton.mpr hyes)
  ifElse hcond hyes _ hno :=
    throughout_of_parts ⟨List.forall_mem_singleton.mpr (.inl hcond), List.forall_mem_nil _⟩
      (List.forall_mem_cons.mpr ⟨hyes, List.forall_mem_singleton.mpr hno⟩)
  caseOf hselector harms hotherwise := by
    refine throughout_of_parts ⟨List.forall_mem_singleton.mpr (.inl hselector),
      List.forall_mem_flatMap.mpr fun arm harm => (harms arm harm).1⟩ ?_
    refine List.forall_mem_append.mpr ⟨List.forall_mem_map.mpr fun arm harm => ?_, fun x hx => ?_⟩
    · exact (harms arm harm).2.elim fun _ h => h
    · exact (hotherwise x (Option.mem_toList.mp hx)).elim fun _ h => h
  whileDo hcond hbody :=
    throughout_of_parts ⟨List.forall_mem_singleton.mpr (.inl hcond), List.forall_mem_nil _⟩
      (List.forall_mem_singleton.mpr hbody)
  repeatUntil hbody hcond :=
    throughout_of_parts ⟨List.forall_mem_singleton.mpr (.inl hcond), List.forall_mem_nil _⟩
      fun x hx => (hbody x hx).elim fun _ h => h
  forDo hfirst hlast hbody :=
    throughout_of_parts ⟨List.forall_mem_cons.mpr
      ⟨.inl hfirst, List.forall_mem_singleton.mpr (.inl hlast)⟩, List.forall_mem_nil _⟩
      (List.forall_mem_singleton.mpr hbody)
  assign htarget hvalue :=
    throughout_of_parts ⟨List.forall_mem_cons.mpr
      ⟨.inr ⟨_, htarget, rfl⟩, List.forall_mem_singleton.mpr (.inl hvalue)⟩, List.forall_mem_nil _⟩
      (List.forall_mem_nil _)
  call hargs :=
    throughout_of_parts ⟨fun e he => .inl (hargs e he), List.forall_mem_nil _⟩
      (List.forall_mem_nil _)
  read htargets :=
    throughout_of_parts
      ⟨List.forall_mem_map.mpr fun a ha => .inr ⟨a, htargets a ha, rfl⟩, List.forall_mem_nil _⟩
      (List.forall_mem_nil _)
  write hargs :=
    throughout_of_parts
      ⟨List.forall_mem_map.mpr fun a ha => .inl (hargs a ha), List.forall_mem_nil _⟩
      (List.forall_mem_nil _)

end Parts

/-- The constants and the body of the block are pieces of the grammar. -/
def Block.Parsed (b : Block) : Prop :=
  (∀ d ∈ b.consts, Produces constExpression d.2) ∧ Produces (compoundOver statement) b.body

def Section.Parsed : Section → Prop
  | .consts ds => ∀ d ∈ ds, Produces constExpression d.2
  | .routine _ block => block.Each Block.Parsed
  | _ => True

lemma constSection_parsed : constSection.Yields (Holds Section.Parsed) := by
  have hdecl : constDeclaration.Yields (Holds fun d => Produces constExpression d.2) := by
    refine Yields.rule (.after fun name => .after fun _ => ?_)
    exact (yields_produced constExpression).bind fun value hvalue =>
      yields_pure (hvalue.map fun _ hv => hv)
  have hitem : (do let a ← constDeclaration; symbol ";"; return a).Yields
      (Holds fun d => Produces constExpression d.2) :=
    hdecl.bind fun d hd => .after fun _ => yields_pure hd
  refine Yields.rule (.after fun _ => Yields.bind (P := fun ds => ∀ d ∈ ds,
    Holds (fun d : String × ConstExpr => Produces constExpression d.2) d) ?_ fun ds hds => ?_)
  · exact hitem.bind fun first hfirst => hitem.many.bind fun more hmore =>
      yields_pure (List.forall_mem_cons.mpr ⟨hfirst, hmore⟩)
  · exact yields_pure ((holds_all hds).map fun _ h => h)

lemma ofSections_parsed {sections : List Section} {body : Stmt}
    (h : ∀ s ∈ sections, s.Parsed) (hbody : Produces (compoundOver statement) body) :
    (Block.ofSections sections body).Each Block.Parsed := by
  induction sections with
  | nil => exact ⟨⟨List.forall_mem_nil _, hbody⟩, trivial⟩
  | cons s rest ih =>
    obtain ⟨hs, hrest⟩ := List.forall_mem_cons.mp h
    obtain ⟨hown, hinside⟩ := Block.each_iff.mp (ih hrest)
    show (s.prepend (Block.ofSections rest body)).Each Block.Parsed
    cases s with
    | consts ds =>
      exact Block.each_iff.mpr ⟨⟨List.forall_mem_append.mpr ⟨hs, hown.1⟩, hown.2⟩, hinside⟩
    | types | vars => exact Block.each_iff.mpr ⟨hown, hinside⟩
    | routine heading block => exact Block.each_iff.mpr ⟨hown, hs, hinside⟩

/-- Every block of a program text is made of pieces of the grammar. -/
theorem Program.parsed_of_parse {text : List Char} {p : Program}
    (h : Program.parse text = .ok p) : p.block.Each Block.Parsed := by
  refine Program.block_of_parse (fun {sub} hsub => ?_) h
  have hsection := section_yields_of_consts (S := Section.Parsed) (Yields.trivial identifier) hsub
    constSection_parsed (fun _ => trivial) (fun _ => trivial) fun _ _ _ hblock => hblock
  exact blockOver_yields hsection (yields_produced _) fun _ _ => ofSections_parsed

end PascalJvm.Source
