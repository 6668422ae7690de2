import Mathlib.Tactic
import PascalJvm.Proofs.Reading

/-!
# Outlines

A block gathers its declarations by kind. Its outline has them in the order of the text, one by
one, and so have the outlines of the routines in it. `Outline.read` reads the outline of a
program, and gathering an outline gives the block that `Program.parse` finds in the same text.
-/
namespace PascalJvm.Source

open Source.Parser

/-- A declaration of a constant, or of a type and the values of an enumeration. -/
inductive Declaration
  | const (name : String) (value : ConstExpr)
  | type (name : String) (spec : TypeSpec)

inductive Item
  | decl (d : Declaration)
  | var (name : String) (ty : TypeRef)
  | routine (heading : Heading) (items : List Item) (body : Stmt)

def Declaration.prepend (b : Block) : Declaration → Block
  | .const n e => ⟨(n, e) :: b.consts, b.types, b.vars, b.routines, b.body⟩
  | .type n spec => ⟨b.consts, (n, spec) :: b.types, b.vars, b.routines, b.body⟩

mutual

/-- Put an item in front of a block. -/
def Item.prepend (b : Block) : Item → Block
  | .decl d => d.prepend b
  | .var n ty => ⟨b.consts, b.types, (n, ty) :: b.vars, b.routines, b.body⟩
  | .routine heading items body =>
      ⟨b.consts, b.types, b.vars, (heading, gather body items) :: b.routines, b.body⟩

/-- Gather items by kind, each kind in order. -/
def gather (body : Stmt) : List Item → Block
  | [] => ⟨[], [], [], [], body⟩
  | i :: rest => i.prepend (gather body rest)

end

structure Outline where
  name : String
  items : List Item
  body : Stmt

def Outline.program (o : Outline) : Program := ⟨o.name, gather o.body o.items⟩

/-- The items of a section that starts with a keyword. -/
def sectionItems {β : Type} (k : String) (p : Parser β) (items : β → Formed (List Item)) :
    Parser (Formed (List Item)) := rule do
  keyword k
  return items (← p)

def procedureItem (sub : Parser (Formed (List Item × Stmt))) : Parser (Formed (List Item)) :=
  rule do
  keyword "procedure"
  let name ← identifier
  let params ← optional formalParams
  symbol ";"
  let inner ← sub
  symbol ";"
  return inner.map fun b => [.routine ⟨name, params.getD [], none⟩ b.1 b.2]

def functionItem (sub : Parser (Formed (List Item × Stmt))) : Parser (Formed (List Item)) :=
  rule do
  keyword "function"
  let name ← identifier
  let params ← optional formalParams
  symbol ":"
  let result ← typeRef
  symbol ";"
  let inner ← sub
  symbol ";"
  return inner.map fun b => [.routine ⟨name, params.getD [], some result⟩ b.1 b.2]

/-- The items and the statements of a block whose nested blocks are read by `sub`. -/
def outlineOver (sub : Parser (Formed (List Item × Stmt))) : Parser (Formed (List Item × Stmt)) := do
  let sections ← many (firstOf
    [sectionItems "const" (declarations constDeclaration)
        fun ds => (Formed.all ds).map (·.map fun d => .decl (.const d.1 d.2)),
      sectionItems "type" (declarations typeDeclaration)
        fun ds => (Formed.all ds).map (·.map fun d => .decl (.type d.1 d.2)),
      sectionItems "var" (declarations typedNames)
        fun ds => .ok (ds.flatten.map fun d => .var d.1 d.2),
      procedureItem sub, functionItem sub])
  let body ← compoundOver statement
  return do return ((← Formed.all sections).flatten, ← body)

def outlineWithin : Nat → Parser (Formed (List Item × Stmt))
  | 0 => fail
  | n + 1 => outlineOver (outlineWithin n)

def outline : Parser (Formed Outline) := do
  keyword "program"
  let name ← identifier
  let _ ← optional (between "(" ")" (commaList identifier))
  symbol ";"
  let block ← fun s => outlineWithin (s.length + 1) s
  symbol "."
  endOfText
  return block.map fun b => ⟨name, b.1, b.2⟩

/-- The outline of a program, if the text is one. -/
def Outline.read (text : List Char) : Option Outline :=
  match (outline text).result with
  | some (.ok o, _) => some o
  | _ => none

namespace Parser

variable {α β γ δ : Type} {R : α → β → Prop} {S : γ → δ → Prop}

/-- The parsers take the same part of every text, and their results correspond. -/
def Parallel (R : α → β → Prop) (p : Parser α) (q : Parser β) : Prop :=
  ∀ s, Option.Rel (fun x y => R x.1 y.1 ∧ x.2 = y.2) (p s).result (q s).result

lemma Parallel.refl (p : Parser α) : Parallel Eq p p := by
  intro s
  cases (p s).result with
  | none => exact .none
  | some x => exact .some ⟨rfl, rfl⟩

lemma Parallel.pure {a : α} {b : β} (h : R a b) : Parallel R (return a) (return b) :=
  fun _ => .some ⟨h, rfl⟩

lemma Parallel.fail : Parallel R (fail : Parser α) (fail : Parser β) := fun _ => .none

lemma Parallel.bind {p : Parser α} {q : Parser β} {f : α → Parser γ} {g : β → Parser δ}
    (h : Parallel R p q) (hf : ∀ a b, R a b → Parallel S (f a) (g b)) :
    Parallel S (p >>= f) (q >>= g) := by
  intro s
  have hs := h s
  rw [result_bind, result_bind]
  generalize (p s).result = x, (q s).result = y at hs
  cases hs with
  | none => exact .none
  | @some x y hxy =>
    obtain ⟨hR, hrest⟩ := hxy
    simp only [Option.bind_some, ← hrest]
    exact hf x.1 y.1 hR x.2

/-- The same parser first. -/
lemma Parallel.after (p : Parser α) {f : α → Parser γ} {g : α → Parser δ}
    (hf : ∀ a, Parallel S (f a) (g a)) : Parallel S (p >>= f) (p >>= g) :=
  (Parallel.refl p).bind fun a _ h => h ▸ hf a

lemma Parallel.orElse {p p' : Parser α} {q q' : Parser β} (h : Parallel R p q)
    (h' : Parallel R p' q') : Parallel R (orElse p p') (orElse q q') := by
  intro s
  have hs := h s
  rw [result_orElse, result_orElse]
  generalize (p s).result = x, (q s).result = y at hs
  cases hs with
  | none => exact h' s
  | some hxy => exact .some hxy

lemma Parallel.firstOf {ps : List (Parser α)} {qs : List (Parser β)}
    (h : List.Forall₂ (Parallel R) ps qs) : Parallel R (firstOf ps) (firstOf qs) := by
  induction h with
  | nil => exact .fail
  | cons h _ ih => exact h.orElse ih

lemma Parallel.rule {p : Parser α} {q : Parser β} (h : Parallel R p q) :
    Parallel R (rule p) (rule q) := by
  intro s
  rw [result_rule, result_rule]
  exact h _

lemma Parallel.many {p : Parser α} {q : Parser β} (h : Parallel R p q) :
    Parallel (List.Forall₂ R) (many p) (many q) := by
  have hupTo (n : Nat) : Parallel (List.Forall₂ R) (upTo p n) (upTo q n) := by
    induction n with
    | zero => exact .pure .nil
    | succ n ih => exact (h.bind fun _ _ hab => ih.bind fun _ _ hrest =>
        .pure (.cons hab hrest)).orElse (.pure .nil)
  exact fun s => hupTo (s.length + 1) s

end Parser

namespace Formed

variable {α β γ δ : Type} {R : α → β → Prop} {S : γ → δ → Prop}

/-- The same error, or corresponding meanings. -/
inductive Rel (R : α → β → Prop) : Formed α → Formed β → Prop
  | ok {a : α} {b : β} (h : R a b) : Rel R (.ok a) (.ok b)
  | error (e : FormError) : Rel R (.error e) (.error e)

lemma Rel.bind {x : Formed α} {y : Formed β} {f : α → Formed γ} {g : β → Formed δ} (h : Rel R x y)
    (hfg : ∀ a b, R a b → Rel S (f a) (g b)) : Rel S (x >>= f) (y >>= g) := by
  cases h with
  | ok h => exact hfg _ _ h
  | error e => exact .error e

lemma Rel.map {x : Formed α} {y : Formed β} {f : α → γ} {g : β → δ} (h : Rel R x y)
    (hfg : ∀ a b, R a b → S (f a) (g b)) : Rel S (x.map f) (y.map g) := by
  cases h with
  | ok h => exact .ok (hfg _ _ h)
  | error e => exact .error e

lemma rel_map_self (x : Formed α) {f : α → γ} {g : α → δ} (hfg : ∀ a, S (f a) (g a)) :
    Rel S (x.map f) (x.map g) := by
  cases x with
  | ok a => exact .ok (hfg a)
  | error e => exact .error e

lemma Rel.all {xs : List (Formed α)} {ys : List (Formed β)} (h : List.Forall₂ (Rel R) xs ys) :
    Rel (List.Forall₂ R) (all xs) (all ys) := by
  induction h with
  | nil => exact .ok .nil
  | cons h _ ih => exact h.bind fun _ _ hab => ih.bind fun _ _ hrest => .ok (.cons hab hrest)

end Formed

/-- The items are those of the section. -/
def Prepends (items : List Item) (sec : Section) : Prop :=
  ∀ b, items.foldr (fun i b => i.prepend b) b = sec.prepend b

lemma gather_eq_foldr (body : Stmt) (items : List Item) :
    gather body items = items.foldr (fun i b => i.prepend b) ⟨[], [], [], [], body⟩ := by
  induction items with
  | nil => rfl
  | cons i rest ih => rw [gather, ih, List.foldr_cons]

lemma gather_flatten {parts : List (List Item)} {sections : List Section}
    (h : List.Forall₂ Prepends parts sections) (body : Stmt) :
    gather body parts.flatten = Block.ofSections sections body := by
  rw [gather_eq_foldr, Block.ofSections]
  induction h with
  | nil => rfl
  | cons h _ ih => rw [List.flatten_cons, List.foldr_append, ih, h, List.foldr_cons]

lemma prepends_consts (ds : List (String × ConstExpr)) :
    Prepends (ds.map fun d => .decl (.const d.1 d.2)) (.consts ds) := by
  intro b
  induction ds with
  | nil => cases b; rfl
  | cons d ds ih => rw [List.map_cons, List.foldr_cons, ih]; rfl

lemma prepends_types (ds : List (String × TypeSpec)) :
    Prepends (ds.map fun d => .decl (.type d.1 d.2)) (.types ds) := by
  intro b
  induction ds with
  | nil => cases b; rfl
  | cons d ds ih => rw [List.map_cons, List.foldr_cons, ih]; rfl

lemma prepends_vars (ds : List (String × TypeRef)) :
    Prepends (ds.map fun d => .var d.1 d.2) (.vars ds) := by
  intro b
  induction ds with
  | nil => cases b; rfl
  | cons d ds ih => rw [List.map_cons, List.foldr_cons, ih]; rfl

/-- The items of a block and the block. -/
abbrev Gathers (x : List Item × Stmt) (b : Block) : Prop := gather x.2 x.1 = b

variable {sub : Parser (Formed (List Item × Stmt))} {sub' : Parser (Formed Block)}

lemma procedure_parallel (h : Parallel (Formed.Rel Gathers) sub sub') :
    Parallel (Formed.Rel Prepends) (procedureItem sub) (procedureOver sub') := by
  refine .rule (.after _ fun _ => .after _ fun name => .after _ fun params => .after _ fun _ =>
    h.bind fun x y hxy => .after _ fun _ => .pure (hxy.map ?_))
  rintro ⟨items, body⟩ - rfl b
  rfl

lemma function_parallel (h : Parallel (Formed.Rel Gathers) sub sub') :
    Parallel (Formed.Rel Prepends) (functionItem sub) (functionOver sub') := by
  refine .rule (.after _ fun _ => .after _ fun name => .after _ fun params => .after _ fun _ =>
    .after _ fun result => .after _ fun _ => h.bind fun x y hxy => .after _ fun _ =>
    .pure (hxy.map ?_))
  rintro ⟨items, body⟩ - rfl b
  rfl

lemma outlineOver_parallel (h : Parallel (Formed.Rel Gathers) sub sub') :
    Parallel (Formed.Rel Gathers) (outlineOver sub) (blockOver sub') := by
  have hconst : Parallel (Formed.Rel Prepends) _ constSection := .rule (.after _ fun _ =>
    .after _ fun ds => .pure (Formed.rel_map_self (Formed.all ds) prepends_consts))
  have htype : Parallel (Formed.Rel Prepends) _ typeSection := .rule (.after _ fun _ =>
    .after _ fun ds => .pure (Formed.rel_map_self (Formed.all ds) prepends_types))
  have hvar : Parallel (Formed.Rel Prepends) _ varSection := .rule (.after _ fun _ =>
    .after _ fun ds => .pure (.ok (prepends_vars ds.flatten)))
  refine (Parallel.many (.firstOf (.cons hconst (.cons htype (.cons hvar
    (.cons (procedure_parallel h) (.cons (function_parallel h) .nil))))))).bind
    fun parts sections hparts => .after _ fun body => .pure ?_
  refine (Formed.Rel.all hparts).bind fun xs ys hxs => ?_
  cases body with
  | ok body => exact .ok (gather_flatten hxs body)
  | error e => exact .error e

lemma outlineWithin_parallel (n : Nat) :
    Parallel (Formed.Rel Gathers) (outlineWithin n) (blockWithin n) := by
  induction n with
  | zero => exact .fail
  | succ n ih => exact outlineOver_parallel ih

lemma outline_parallel : Parallel (Formed.Rel fun o p => o.program = p) outline program := by
  have hblock : Parallel (Formed.Rel Gathers) (fun s => outlineWithin (s.length + 1) s) block :=
    fun s => outlineWithin_parallel (s.length + 1) s
  refine .after _ fun _ => .after _ fun name => .after _ fun _ => .after _ fun _ =>
    hblock.bind fun x y hxy => .after _ fun _ => .after _ fun _ => .pure (hxy.map ?_)
  rintro ⟨items, body⟩ - rfl
  rfl

/-- A text is a program exactly if it has an outline, and the program gathers the outline. -/
theorem parse_eq_ok_iff_read {text : List Char} {p : Program} :
    Program.parse text = .ok p ↔ ∃ o, Outline.read text = some o ∧ o.program = p := by
  have htext := outline_parallel text
  unfold Program.parse Outline.read
  generalize (outline text).result = x at htext
  generalize program text = reply at htext
  obtain ⟨y, missed⟩ := reply
  cases htext with
  | none => simp
  | @some x y hxy =>
    obtain ⟨x, r⟩ := x
    obtain ⟨y, r'⟩ := y
    obtain ⟨hxy, -⟩ := hxy
    cases hxy with
    | ok h => simp [← h, Except.mapError]
    | error e => simp [Except.mapError]

end PascalJvm.Source
