import PascalJvm.Source.Layout
import PascalJvm.Source.Lexeme
import PascalJvm.Text.Search

/-!
# Parsers

A parser reads from the start of a text and replies with a value and the rest, or with
nothing. Choice is ordered and a repetition takes all it can; neither is taken back later.
Besides, a reply says how far the text made sense: a rule that fails marks the place where
it began, a reply keeps the furthest mark, and marks made on the way to a success count as
well. A place is given by the number of characters left, so the furthest is the least.
-/
namespace PascalJvm.Source

structure Reply (α : Type) where
  result : Option (α × List Char)
  missed : Option Nat

def Parser (α : Type) := List Char → Reply α

namespace Parser

variable {α β : Type}

/-- The further of two marks. -/
def furthest : Option Nat → Option Nat → Option Nat
  | none, m => m
  | m, none => m
  | some m, some n => some (min m n)

def pure (a : α) : Parser α := fun s => ⟨some (a, s), none⟩

def bind (p : Parser α) (f : α → Parser β) : Parser β := fun s =>
  match p s with
  | ⟨none, m⟩ => ⟨none, m⟩
  | ⟨some (a, rest), m⟩ =>
      let r := f a rest
      ⟨r.result, furthest m r.missed⟩

instance : Monad Parser where
  pure := Parser.pure
  bind := Parser.bind

def fail : Parser α := fun _ => ⟨none, none⟩

/-- The first parser, or the second where the first finds nothing. -/
def orElse (p q : Parser α) : Parser α := fun s =>
  match p s with
  | ⟨some a, m⟩ => ⟨some a, m⟩
  | ⟨none, m⟩ =>
      let r := q s
      ⟨r.result, furthest m r.missed⟩

/-- The first parser of a list that finds something. -/
def firstOf : List (Parser α) → Parser α
  | [] => fail
  | p :: ps => orElse p (firstOf ps)

/-- What `p` finds, or nothing. -/
def optional (p : Parser α) : Parser (Option α) :=
  orElse (do let a ← p; return some a) (return none)

/-- At most `n` times `p`. -/
def upTo (p : Parser α) : Nat → Parser (List α)
  | 0 => return []
  | n + 1 => orElse (do let a ← p; let more ← upTo p n; return a :: more) (return [])

/-- As many times `p` as possible, for a `p` that takes at least one character. -/
def many (p : Parser α) : Parser (List α) := fun s => upTo p (s.length + 1) s

/-- A rule of the grammar: layout in front of it is skipped, and where it fails, the place
where it began is marked. -/
def rule (p : Parser α) : Parser α := fun s =>
  let s := Layout.skip s
  match p s with
  | ⟨some a, m⟩ => ⟨some a, m⟩
  | ⟨none, m⟩ => ⟨none, furthest m (some s.length)⟩

/-- A lexeme as a rule. -/
def lexeme (scan : List Char → Option (α × List Char)) : Parser α := rule fun s => ⟨scan s, none⟩

/-- A mark such as `:=`. It is no rule: a missing mark is noticed by the rule around it. -/
def symbol (mark : String) : Parser Unit := fun s =>
  ⟨(Text.after? mark.toList (Layout.skip s)).map ((), ·), none⟩

def keyword (k : String) : Parser Unit := lexeme (Lexeme.keyword? k)

def identifier : Parser String := lexeme Lexeme.identifier?

/-- The end of the text. -/
def endOfText : Parser Unit := lexeme fun s => if s.isEmpty then some ((), s) else none

/-- A mark that means `a`. -/
def marked (mark : String) (a : α) : Parser α := do
  symbol mark
  return a

/-- A keyword that means `a`. -/
def worded (k : String) (a : α) : Parser α := do
  keyword k
  return a

/-- One or more `p` with commas between them. -/
def commaList (p : Parser α) : Parser (List α) := do
  let first ← p
  let more ← many (do symbol ","; p)
  return first :: more

/-- `p` between two marks. -/
def between (opening closing : String) (p : Parser α) : Parser α := do
  symbol opening
  let a ← p
  symbol closing
  return a

end Parser

namespace Formed

variable {α : Type}

/-- The meanings of a list of pieces; the first error counts. -/
def all : List (Formed α) → Formed (List α)
  | [] => .ok []
  | x :: xs => do return (← x) :: (← all xs)

/-- The meaning of a piece that may be left out. -/
def option : Option (Formed α) → Formed (Option α)
  | none => .ok none
  | some x => x.map some

end Formed
end PascalJvm.Source
