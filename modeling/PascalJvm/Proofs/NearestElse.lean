import PascalJvm.Proofs.StatementForms

/-!
# The nearest open conditional

An `else` belongs to the nearest conditional that can still take one. In the tree of a program
text, the statement between `then` and `else` never ends in a conditional without an `else` part
(`else_belongs_to_nearest_if`), however the two conditionals are nested. The reason is a fact about
the text: behind a statement that ends in such a conditional no `else` part can be read, or the
inner conditional would have taken it.
-/
namespace PascalJvm.Source

open Source.Parser

namespace Stmt

/-- The statement ends in a conditional without an `else` part. -/
def EndsOpen : Stmt → Prop
  | .ifThen _ _ none => True
  | .ifThen _ _ (some no) => no.EndsOpen
  | .whileDo _ body => body.EndsOpen
  | .forDo _ _ _ _ body => body.EndsOpen
  | _ => False

/-- If the statement is a conditional with an `else` part, no open conditional before the `else`
could have taken it. -/
def ElseNearest : Stmt → Prop
  | .ifThen _ yes (some _) => ¬ yes.EndsOpen
  | _ => True

end Stmt

/-- What the text behind a statement has to do with it: if the statement is open at its end, no
`else` part follows. -/
def Settled (x : Stmt) (r : List Char) : Prop :=
  x.Throughout Stmt.ElseNearest ∧ (x.EndsOpen → Misses elsePart r)

lemma settled_rules : StatementRules Settled where
  compound hbody := by
    refine ⟨throughout_of_parts trivial fun x hx => ?_, nofun⟩
    obtain ⟨-, hnearest, -⟩ := hbody x hx
    exact hnearest
  ifThen _ hyes hmiss :=
    ⟨throughout_of_parts trivial (List.forall_mem_singleton.mpr hyes.1), fun _ => hmiss⟩
  ifElse _ hyes helse hno := by
    -- an open statement before this `else` would have been offered the same text
    refine ⟨throughout_of_parts (fun hopen => helse (hyes.2 hopen)) ?_, hno.2⟩
    exact List.forall_mem_cons.mpr ⟨hyes.1, List.forall_mem_singleton.mpr hno.1⟩
  caseOf _ harms hotherwise := by
    refine ⟨throughout_of_parts trivial (List.forall_mem_append.mpr
      ⟨List.forall_mem_map.mpr fun arm harm => ?_, fun x hx => ?_⟩), nofun⟩
    · obtain ⟨-, -, hnearest, -⟩ := harms arm harm
      exact hnearest
    · obtain ⟨-, hnearest, -⟩ := hotherwise x (Option.mem_toList.mp hx)
      exact hnearest
  whileDo _ hbody :=
    ⟨throughout_of_parts trivial (List.forall_mem_singleton.mpr hbody.1), hbody.2⟩
  repeatUntil hbody _ := by
    refine ⟨throughout_of_parts trivial fun x hx => ?_, nofun⟩
    obtain ⟨-, hnearest, -⟩ := hbody x hx
    exact hnearest
  forDo _ _ hbody :=
    ⟨throughout_of_parts trivial (List.forall_mem_singleton.mpr hbody.1), hbody.2⟩
  assign _ _ := ⟨throughout_of_parts trivial (List.forall_mem_nil _), nofun⟩
  call _ := ⟨throughout_of_parts trivial (List.forall_mem_nil _), nofun⟩
  read _ := ⟨throughout_of_parts trivial (List.forall_mem_nil _), nofun⟩
  write _ := ⟨throughout_of_parts trivial (List.forall_mem_nil _), nofun⟩

/-- In the tree of a program text, no statement between `then` and `else` ends in a conditional
without an `else` part. -/
theorem else_belongs_to_nearest_if {text : List Char} {p : Program}
    (h : Program.parse text = .ok p) : p.block.Each fun b => ∀ cond yes no,
      (Stmt.ifThen cond yes (some no)).Within b.body → ¬ yes.EndsOpen := by
  refine (Program.parsed_of_parse h).imp fun b hb => ?_
  obtain ⟨r, hnearest, -⟩ := settled_rules.of_body hb.2
  exact fun cond yes no hwithin => hnearest _ hwithin

/-- A conditional in the body of a loop, between `then` and `else` of another one. -/
def nestedText : List Char :=
  "program p; begin if a then while b do if c then f else g else h end.".toList

/-- The loop of a body that consists of a conditional with two parts, the first of which is a loop
around another conditional with two parts. -/
def guardedLoop? : Stmt → Option (Expr × Stmt × Stmt)
  | .compound [.ifThen cond (.whileDo c (.ifThen d yes (some no))) (some other)] =>
      some (cond, .whileDo c (.ifThen d yes (some no)), other)
  | _ => none

lemma body_of_guardedLoop? {body loop other : Stmt} {cond : Expr}
    (h : guardedLoop? body = some (cond, loop, other)) :
    body = .compound [.ifThen cond loop (some other)] := by
  unfold guardedLoop? at h
  split at h
  next =>
    cases h
    rfl
  next => cases h

theorem nestedText_else_nearest : ∃ p cond loop other, Program.parse nestedText = .ok p ∧
    p.block.body = .compound [.ifThen cond loop (some other)] ∧ ¬ loop.EndsOpen := by
  have hloop : ((Program.parse nestedText).toOption.bind fun p =>
      guardedLoop? p.block.body).isSome = true := by decide +kernel
  obtain ⟨⟨cond, loop, other⟩, hloop⟩ := Option.isSome_iff_exists.mp hloop
  obtain ⟨p, hparse, hloop⟩ := Option.bind_eq_some_iff.mp hloop
  rw [toOption_eq_some] at hparse
  have hbody := body_of_guardedLoop? hloop
  refine ⟨p, cond, loop, other, hparse, hbody, ?_⟩
  refine (Block.each_iff.mp (else_belongs_to_nearest_if hparse)).1 cond loop other ?_
  rw [hbody]
  exact .single List.mem_cons_self

end PascalJvm.Source
