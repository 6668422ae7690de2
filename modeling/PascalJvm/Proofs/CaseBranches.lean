import Mathlib.Tactic
import PascalJvm.Proofs.Outcome
import PascalJvm.Source.Program

/-!
# Branches of parsed case statements

The grammar asks for at least one constant before every branch of a case statement, so in the
tree of a text no branch is without one. `Parser.Yields` says what holds of everything that a
parser finds.
-/
namespace PascalJvm.Source

mutual

/-- Every branch of every case statement has a constant. -/
def Stmt.Branched : Stmt → Prop
  | .compound body => StmtsBranched body
  | .ifThen _ yes no => yes.Branched ∧ OptionalBranched no
  | .caseOf _ arms otherwise => ArmsBranched arms ∧ OptionalBranched otherwise
  | .whileDo _ body => body.Branched
  | .repeatUntil body _ => StmtsBranched body
  | .forDo _ _ _ _ body => body.Branched
  | .assign .. | .call .. | .read .. | .write .. => True

def StmtsBranched : List Stmt → Prop
  | [] => True
  | s :: rest => s.Branched ∧ StmtsBranched rest

def OptionalBranched : Option Stmt → Prop
  | none => True
  | some s => s.Branched

def ArmsBranched : List (List ConstExpr × Stmt) → Prop
  | [] => True
  | (constants, s) :: rest => constants ≠ [] ∧ s.Branched ∧ ArmsBranched rest

end

mutual

def Block.Branched : Block → Prop
  | ⟨_, _, _, routines, body⟩ => body.Branched ∧ RoutinesBranched routines

def RoutinesBranched : List (Heading × Block) → Prop
  | [] => True
  | (_, b) :: rest => b.Branched ∧ RoutinesBranched rest

end

lemma stmtsBranched_of_forall {body : List Stmt} (h : ∀ s ∈ body, s.Branched) :
    StmtsBranched body := by
  induction body with
  | nil => trivial
  | cons s rest ih =>
    exact ⟨h s List.mem_cons_self, ih fun x hx => h x (List.mem_cons_of_mem _ hx)⟩

lemma armsBranched_of_forall {arms : List (List ConstExpr × Stmt)}
    (h : ∀ arm ∈ arms, arm.1 ≠ [] ∧ arm.2.Branched) : ArmsBranched arms := by
  induction arms with
  | nil => trivial
  | cons arm rest ih =>
    obtain ⟨hconstants, hbody⟩ := h arm List.mem_cons_self
    exact ⟨hconstants, hbody, ih fun x hx => h x (List.mem_cons_of_mem _ hx)⟩

lemma Block.branched_iff {b : Block} :
    b.Branched ↔ b.body.Branched ∧ RoutinesBranched b.routines := by
  cases b
  exact Iff.rfl

namespace Parser

variable {α β : Type} {p q : Parser α} {P : α → Prop} {Q : β → Prop}

/-- Everything that the parser finds has the property. -/
def Yields (p : Parser α) (P : α → Prop) : Prop :=
  ∀ s a rest, (p s).result = some (a, rest) → P a

lemma Yields.trivial (p : Parser α) : p.Yields fun _ => True := fun _ _ _ _ => True.intro

lemma Yields.mono {P' : α → Prop} (h : p.Yields P) (hP : ∀ a, P a → P' a) : p.Yields P' :=
  fun s a rest hs => hP a (h s a rest hs)

lemma yields_pure {a : α} (ha : P a) : Yields (return a) P := by
  intro s b rest h
  cases h
  exact ha

lemma Yields.bind {f : α → Parser β} (hp : p.Yields P) (hf : ∀ a, P a → (f a).Yields Q) :
    Yields (p >>= f) Q := by
  intro s b rest h
  change (Parser.bind p f s).result = _ at h
  unfold Parser.bind at h
  split at h
  next => cases h
  next a left m ha => exact hf a (hp s a left (by rw [ha])) left b rest h

/-- A step whose value does not matter. -/
lemma Yields.after {f : α → Parser β} (hf : ∀ a, (f a).Yields Q) : Yields (p >>= f) Q :=
  (Yields.trivial p).bind fun a _ => hf a

lemma yields_fail : (fail : Parser α).Yields P := by
  intro s a rest h
  cases h

lemma Yields.orElse (hp : p.Yields P) (hq : q.Yields P) : (orElse p q).Yields P := by
  intro s a rest h
  unfold Parser.orElse at h
  split at h
  next x m hx => exact hp s a rest (by rw [hx]; exact h)
  next => exact hq s a rest h

lemma yields_firstOf {ps : List (Parser α)} (h : ∀ p ∈ ps, p.Yields P) : (firstOf ps).Yields P := by
  induction ps with
  | nil => exact yields_fail
  | cons p ps ih =>
    exact (h p List.mem_cons_self).orElse (ih fun q hq => h q (List.mem_cons_of_mem _ hq))

lemma Yields.optional (hp : p.Yields P) : (optional p).Yields fun x => ∀ a ∈ x, P a := by
  refine Yields.orElse ?_ (yields_pure (by simp))
  exact hp.bind fun a ha => yields_pure (by simpa using ha)

lemma Yields.upTo (hp : p.Yields P) (n : Nat) : (upTo p n).Yields fun xs => ∀ a ∈ xs, P a := by
  induction n with
  | zero => exact yields_pure (by simp)
  | succ n ih =>
    refine Yields.orElse ?_ (yields_pure (by simp))
    exact hp.bind fun a ha => ih.bind fun more hmore => yields_pure (by simp [ha]; exact hmore)

lemma Yields.many (hp : p.Yields P) : (many p).Yields fun xs => ∀ a ∈ xs, P a :=
  fun s => hp.upTo (s.length + 1) s

lemma Yields.rule (hp : p.Yields P) : (rule p).Yields P := by
  intro s a rest h
  unfold Parser.rule at h
  dsimp only at h
  split at h
  next x m hx => exact hp _ a rest (by rw [hx]; exact h)
  next => cases h

lemma Yields.commaList (hp : p.Yields P) : (commaList p).Yields fun xs => ∀ a ∈ xs, P a := by
  refine hp.bind fun first hfirst => ?_
  refine Yields.bind (Yields.many (.after fun _ => hp)) fun more hmore => yields_pure ?_
  exact List.forall_mem_cons.mpr ⟨hfirst, hmore⟩

lemma Yields.between {opening closing : String} (hp : p.Yields P) :
    (between opening closing p).Yields P :=
  .after fun _ => hp.bind fun _ ha => .after fun _ => yields_pure ha

lemma commaList_ne_nil : (commaList p).Yields fun xs => xs ≠ [] :=
  .after fun _ => .after fun _ => yields_pure (by simp)

end Parser

namespace Formed

variable {α β : Type}

/-- The meaning, if there is one, has the property. -/
def Holds (P : α → Prop) (x : Formed α) : Prop := ∀ a, x = .ok a → P a

lemma holds_all {P : α → Prop} {xs : List (Formed α)} (h : ∀ x ∈ xs, Holds P x) :
    Holds (fun as => ∀ a ∈ as, P a) (Formed.all xs) := by
  induction xs with
  | nil =>
    intro as has
    cases has
    simp
  | cons x xs ih =>
    intro as has
    simp only [Formed.all, bind_eq_ok, pure_eq_ok] at has
    obtain ⟨a, ha, rest, hrest, rfl⟩ := has
    have htail := ih (fun y hy => h y (List.mem_cons_of_mem _ hy)) rest hrest
    intro b hb
    rcases List.mem_cons.mp hb with rfl | hb
    · exact h x List.mem_cons_self b ha
    · exact htail b hb

lemma all_ne_nil {xs : List (Formed α)} (hne : xs ≠ []) {as : List α}
    (h : Formed.all xs = .ok as) : as ≠ [] := by
  cases xs with
  | nil => exact absurd rfl hne
  | cons x xs =>
    simp only [Formed.all, bind_eq_ok, pure_eq_ok] at h
    obtain ⟨a, -, rest, -, rfl⟩ := h
    simp

lemma Holds.map {f : α → β} {P : α → Prop} {Q : β → Prop} {x : Formed α} (h : Holds P x)
    (hf : ∀ a, P a → Q (f a)) : Holds Q (x.map f) := by
  intro b hb
  obtain ⟨a, ha, rfl⟩ := map_eq_ok.mp hb
  exact hf a (h a ha)

end Formed

open Source.Parser Formed

/-- What a parser of statements finds has constants before every branch. -/
abbrev YieldsBranched (p : Parser (Formed Stmt)) : Prop := p.Yields (Holds Stmt.Branched)

section

variable {sub : Parser (Formed Stmt)}

lemma statementList_yields {P : Stmt → Prop} (h : sub.Yields (Holds P)) :
    (statementList sub).Yields (Holds fun body => ∀ x ∈ body, P x) := by
  refine h.optional.bind fun first hfirst => ?_
  refine Yields.bind (Yields.many (Yields.after fun _ => h.optional)) fun more hmore => ?_
  refine yields_pure (holds_all fun x hx => ?_)
  obtain ⟨y, hy, rfl⟩ := List.mem_filterMap.mp hx
  rcases List.mem_cons.mp hy with rfl | hy
  · exact hfirst x rfl
  · exact hmore _ hy x rfl

lemma statementList_branched (h : YieldsBranched sub) :
    (statementList sub).Yields (Holds StmtsBranched) :=
  (statementList_yields h).mono fun _ hbody body hb => stmtsBranched_of_forall (hbody body hb)

lemma compoundOver_branched (h : YieldsBranched sub) : YieldsBranched (compoundOver sub) := by
  refine Yields.rule (.after fun _ => (statementList_branched h).bind fun body hbody => ?_)
  exact .after fun _ => yields_pure (hbody.map fun _ hb => hb)

lemma option_branched {x : Option (Formed Stmt)} (h : ∀ y ∈ x, Holds Stmt.Branched y) :
    Holds OptionalBranched (Formed.option x) := by
  intro o ho
  cases x with
  | none =>
    cases ho
    trivial
  | some y =>
    obtain ⟨s, hs, rfl⟩ := map_eq_ok.mp ho
    exact h y rfl s hs

lemma ifOver_branched (h : YieldsBranched sub) : YieldsBranched (ifOver sub) := by
  refine Yields.rule (.after fun _ => .after fun cond => .after fun _ => ?_)
  refine h.bind fun yes hyes => ?_
  refine Yields.bind (Yields.optional (Yields.after fun _ => h)) fun no hno => yields_pure ?_
  intro s hs
  simp only [bind_eq_ok, pure_eq_ok] at hs
  obtain ⟨c, -, y, hy, o, ho, rfl⟩ := hs
  exact ⟨hyes y hy, option_branched hno o ho⟩

lemma caseArm_branched (h : YieldsBranched sub) :
    (caseArm sub).Yields (Holds fun arm => arm.1 ≠ [] ∧ arm.2.Branched) := by
  refine Yields.rule (commaList_ne_nil.bind fun consts hne => .after fun _ => ?_)
  refine h.bind fun body hbody => yields_pure ?_
  intro arm harm
  simp only [bind_eq_ok, pure_eq_ok] at harm
  obtain ⟨cs, hcs, s, hs, rfl⟩ := harm
  exact ⟨all_ne_nil hne hcs, hbody s hs⟩

lemma caseDefault_branched (h : YieldsBranched sub) : YieldsBranched (caseDefault sub) := by
  refine Yields.rule (.after fun _ => (statementList_branched h).bind fun body hbody => ?_)
  exact yields_pure (hbody.map fun _ hb => hb)

lemma caseOver_branched (h : YieldsBranched sub) : YieldsBranched (caseOver sub) := by
  refine Yields.rule (.after fun _ => .after fun selector => .after fun _ => ?_)
  refine (caseArm_branched h).bind fun first hfirst => ?_
  refine Yields.bind (Yields.many (.after fun _ => caseArm_branched h)) fun more hmore => ?_
  refine .after fun _ => (caseDefault_branched h).optional.bind fun otherwise hother => ?_
  refine .after fun _ => .after fun _ => yields_pure ?_
  intro s hs
  simp only [bind_eq_ok, pure_eq_ok] at hs
  obtain ⟨e, -, arms, harms, o, ho, rfl⟩ := hs
  refine ⟨armsBranched_of_forall (holds_all ?_ arms harms), option_branched hother o ho⟩
  intro x hx
  rcases List.mem_cons.mp hx with rfl | hx
  · exact hfirst
  · exact hmore x hx

lemma whileOver_branched (h : YieldsBranched sub) : YieldsBranched (whileOver sub) := by
  refine Yields.rule (.after fun _ => .after fun cond => .after fun _ => ?_)
  refine h.bind fun body hbody => yields_pure ?_
  intro s hs
  simp only [bind_eq_ok, pure_eq_ok] at hs
  obtain ⟨c, -, b, hb, rfl⟩ := hs
  exact hbody b hb

lemma repeatOver_branched (h : YieldsBranched sub) : YieldsBranched (repeatOver sub) := by
  refine Yields.rule (.after fun _ => (statementList_branched h).bind fun body hbody => ?_)
  refine .after fun _ => .after fun cond => yields_pure ?_
  intro s hs
  simp only [bind_eq_ok, pure_eq_ok] at hs
  obtain ⟨b, hb, c, -, rfl⟩ := hs
  exact hbody b hb

lemma forOver_branched (h : YieldsBranched sub) : YieldsBranched (forOver sub) := by
  refine Yields.rule (.after fun _ => .after fun counter => .after fun _ => .after fun first => ?_)
  refine .after fun down => .after fun last => .after fun _ => ?_
  refine h.bind fun body hbody => yields_pure ?_
  intro s hs
  simp only [bind_eq_ok, pure_eq_ok] at hs
  obtain ⟨a, -, b, -, c, hc, rfl⟩ := hs
  exact hbody c hc

/-- A statement without parts that are statements. -/
lemma simple_branched {α : Type} {x : Formed α} {f : α → Stmt} (hf : ∀ a, (f a).Branched) :
    Holds Stmt.Branched (x >>= fun a => return f a) := by
  intro s hs
  simp only [bind_eq_ok, pure_eq_ok] at hs
  obtain ⟨a, -, rfl⟩ := hs
  exact hf a

lemma statementOver_branched (h : YieldsBranched sub) : YieldsBranched (statementOver sub) := by
  refine yields_firstOf fun p hp => ?_
  simp only [List.mem_cons, List.not_mem_nil, or_false] at hp
  rcases hp with rfl | rfl | rfl | rfl | rfl | rfl | rfl | rfl | rfl | rfl | rfl | rfl
  · exact compoundOver_branched h
  · exact ifOver_branched h
  · exact caseOver_branched h
  · exact whileOver_branched h
  · exact repeatOver_branched h
  · exact forOver_branched h
  · exact Yields.rule (.after fun _ => .after fun _ => yields_pure (simple_branched fun _ => trivial))
  · exact Yields.rule (.after fun _ => .after fun _ => yields_pure (simple_branched fun _ => trivial))
  · exact Yields.rule (.after fun _ => .after fun _ => yields_pure (simple_branched fun _ => trivial))
  · exact Yields.rule (.after fun _ => .after fun _ => yields_pure (simple_branched fun _ => trivial))
  · refine Yields.rule (.after fun _ => .after fun _ => .after fun _ => yields_pure ?_)
    intro s hs
    simp only [bind_eq_ok, pure_eq_ok] at hs
    obtain ⟨a, -, b, -, rfl⟩ := hs
    trivial
  · exact Yields.rule (.after fun _ => .after fun _ => yields_pure (simple_branched fun _ => trivial))

end

lemma statementWithin_branched (n : Nat) : YieldsBranched (statementWithin n) := by
  induction n with
  | zero => exact yields_fail
  | succ n ih => exact statementOver_branched ih

lemma statement_branched : YieldsBranched statement :=
  fun s => statementWithin_branched (s.length + 1) s

/-- A section of declarations whose blocks have constants before every branch. -/
def Section.Branched : Section → Prop
  | .routine _ block => block.Branched
  | _ => True

lemma ofSections_branched {sections : List Section} (h : ∀ s ∈ sections, s.Branched)
    {body : Stmt} (hbody : body.Branched) : (Block.ofSections sections body).Branched := by
  induction sections with
  | nil => exact ⟨hbody, trivial⟩
  | cons s rest ih =>
    have hrest := Block.branched_iff.mp (ih fun x hx => h x (List.mem_cons_of_mem _ hx))
    have hs := h s List.mem_cons_self
    show (s.prepend (Block.ofSections rest body)).Branched
    cases s with
    | consts | types | vars => exact Block.branched_iff.mpr hrest
    | routine heading block => exact Block.branched_iff.mpr ⟨hrest.1, hs, hrest.2⟩

/-- What sections have when the constants, and the name and the block of every routine, have their
properties. -/
lemma section_yields_of_consts {sub : Parser (Formed Block)} {N : String → Prop}
    {P : Block → Prop} {S : Section → Prop} (hname : identifier.Yields N)
    (hsub : sub.Yields (Holds P)) (hconsts : constSection.Yields (Holds S))
    (htypes : ∀ ds, S (.types ds)) (hvars : ∀ ds, S (.vars ds))
    (hroutine : ∀ h b, N h.name → P b → S (.routine h b)) :
    (firstOf [constSection, typeSection, varSection, procedureOver sub,
      functionOver sub]).Yields (Holds S) := by
  refine yields_firstOf fun p hp => ?_
  simp only [List.mem_cons, List.not_mem_nil, or_false] at hp
  rcases hp with rfl | rfl | rfl | rfl | rfl
  · exact hconsts
  · refine Yields.rule (.after fun _ => .after fun decls => yields_pure ?_)
    intro s hs
    obtain ⟨ds, -, rfl⟩ := map_eq_ok.mp hs
    exact htypes ds
  · refine Yields.rule (.after fun _ => .after fun decls => yields_pure ?_)
    intro s hs
    cases hs
    exact hvars _
  · refine Yields.rule (.after fun _ => hname.bind fun name hn => .after fun _ => .after fun _ => ?_)
    exact hsub.bind fun block hblock => .after fun _ =>
      yields_pure (hblock.map fun b hb => hroutine _ b hn hb)
  · refine Yields.rule (.after fun _ => hname.bind fun name hn => .after fun _ => .after fun _ => ?_)
    refine .after fun _ => .after fun _ => ?_
    exact hsub.bind fun block hblock => .after fun _ =>
      yields_pure (hblock.map fun b hb => hroutine _ b hn hb)

/-- What sections have when the name and the block of every routine have their properties. -/
lemma section_yields {sub : Parser (Formed Block)} {N : String → Prop} {P : Block → Prop}
    {S : Section → Prop} (hname : identifier.Yields N) (hsub : sub.Yields (Holds P))
    (hconsts : ∀ ds, S (.consts ds)) (htypes : ∀ ds, S (.types ds)) (hvars : ∀ ds, S (.vars ds))
    (hroutine : ∀ h b, N h.name → P b → S (.routine h b)) :
    (firstOf [constSection, typeSection, varSection, procedureOver sub,
      functionOver sub]).Yields (Holds S) := by
  refine section_yields_of_consts hname hsub ?_ htypes hvars hroutine
  refine Yields.rule (.after fun _ => .after fun decls => yields_pure ?_)
  intro s hs
  obtain ⟨ds, -, rfl⟩ := map_eq_ok.mp hs
  exact hconsts ds

/-- A property of blocks that goes from the sections and the body to the block. -/
lemma blockOver_yields {sub : Parser (Formed Block)} {P : Block → Prop} {S : Section → Prop}
    {B : Stmt → Prop}
    (hsection : (firstOf [constSection, typeSection, varSection, procedureOver sub,
      functionOver sub]).Yields (Holds S))
    (hbody : (compoundOver statement).Yields (Holds B))
    (hblock : ∀ sections body, (∀ s ∈ sections, S s) → B body → P (.ofSections sections body)) :
    (blockOver sub).Yields (Holds P) := by
  refine hsection.many.bind fun sections hsections => ?_
  refine hbody.bind fun body hbody => yields_pure ?_
  intro b hb
  simp only [bind_eq_ok, pure_eq_ok] at hb
  obtain ⟨ss, hss, s, hs, rfl⟩ := hb
  exact hblock ss s (holds_all hsections ss hss) (hbody s hs)

/-- A property that goes from nested blocks to the block around them holds of the block of every
program text. -/
lemma Program.block_of_parse {P : Block → Prop}
    (hover : ∀ {sub : Parser (Formed Block)}, sub.Yields (Holds P) →
      (blockOver sub).Yields (Holds P))
    {text : List Char} {p : Program} (h : Program.parse text = .ok p) : P p.block := by
  have hwithin : ∀ n, (blockWithin n).Yields (Holds P) := by
    intro n
    induction n with
    | zero => exact yields_fail
    | succ n ih => exact hover ih
  have hblock : Source.block.Yields (Holds P) := fun s => hwithin (s.length + 1) s
  have hyields : program.Yields (Holds fun p => P p.block) := by
    refine .after fun _ => .after fun name => .after fun _ => .after fun _ => ?_
    refine hblock.bind fun block hblock => .after fun _ => .after fun _ => ?_
    exact yields_pure (hblock.map fun _ hb => hb)
  unfold Program.parse at h
  split at h
  next x rest m hx => exact hyields text x rest (by rw [hx]) p (mapError_eq_ok.mp h)
  next => cases h

lemma blockOver_branched {sub : Parser (Formed Block)} (h : sub.Yields (Holds Block.Branched)) :
    (blockOver sub).Yields (Holds Block.Branched) := by
  have hsection := section_yields (S := Section.Branched) (Yields.trivial identifier) h
    (fun _ => trivial) (fun _ => trivial) (fun _ => trivial) fun _ _ _ hb => hb
  exact blockOver_yields hsection (compoundOver_branched statement_branched)
    fun _ _ hsections hbody => ofSections_branched hsections hbody

/-- Every branch of a case statement in a program text has a constant. -/
theorem Program.branched_of_parse {text : List Char} {p : Program}
    (h : Program.parse text = .ok p) : p.block.Branched :=
  Program.block_of_parse blockOver_branched h

end PascalJvm.Source
