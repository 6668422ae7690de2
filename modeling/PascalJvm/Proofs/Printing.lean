import Mathlib.Tactic
import PascalJvm.Source.Program

/-!
# Written expressions

An expression is written as a list of tokens, with a gap of layout between any two. Operators
bind in levels, and an operand that binds more loosely than its place allows stands in
parentheses. How loosely the left operand of an operator may bind is a parameter: an operator
that associates to the left takes operands of its own level there.
-/
namespace PascalJvm.Source

namespace Layout

/-- Blanks and closed comments. -/
inductive Filler : List Char → Prop
  | nil : Filler []
  | blank {c : Char} {l : List Char} : isSpace c → Filler l → Filler (c :: l)
  | braces {inside l : List Char} : '\x7d' ∉ inside → Filler l →
      Filler ('\x7b' :: inside ++ '\x7d' :: l)
  | stars {inside l : List Char} : ¬ ['*', ')'] <:+: inside → Filler l →
      Filler ('(' :: '*' :: inside ++ '*' :: ')' :: l)
  | slashes {inside l : List Char} : '\n' ∉ inside → Filler l →
      Filler ('/' :: '/' :: inside ++ '\n' :: l)

/-- Layout that begins with a blank. -/
def Gap : List Char → Prop
  | [] => False
  | c :: l => isSpace c ∧ Filler l

end Layout

/-- The text of one item of a program. -/
abbrev Token := List Char

/-- The tokens in order, with a gap between any two. -/
inductive Written : List Token → List Char → Prop
  | last (t : Token) : Written [t] t
  | more (t : Token) {gap s : List Char} {ts : List Token} :
      Layout.Gap gap → Written ts s → Written (t :: ts) (t ++ gap ++ s)

/-- A word that is no keyword and no truth value. -/
def isName (n : String) : Bool :=
  match n.toList with
  | [] => false
  | c :: cs =>
      Lexeme.isWordStart c && cs.all Lexeme.isWordChar && !Lexeme.isReserved (c :: cs) &&
        Lexeme.lower (c :: cs) != "true".toList && Lexeme.lower (c :: cs) != "false".toList

/-- A variable with selectors after it. -/
def Expr.isAccess : Expr → Bool
  | .name _ => true
  | .field record _ => record.isAccess
  | .index array _ => array.isAccess
  | _ => false

mutual

/-- Trees that have a text, those with real literals apart. -/
def Expr.Printable : Expr → Prop
  | .int n => 0 ≤ n
  | .real _ => False
  | .bool _ => True
  | .char code => code ≤ 0xFFFF
  | .text _ => True
  | .name n => isName n
  | .call f args => isName f ∧ ArgsPrintable args
  | .field record f => record.isAccess ∧ record.Printable ∧ isName f
  | .index array position => array.isAccess ∧ array.Printable ∧ position.Printable
  | .unary _ x => x.Printable
  | .binary _ a b => a.Printable ∧ b.Printable

def ArgsPrintable : List Expr → Prop
  | [] => True
  | e :: rest => e.Printable ∧ ArgsPrintable rest

end

end Source

/-- How loosely an operator binds: `*` and its kind, `+` and its kind, comparisons. -/
def BinOp.level : BinOp → Nat
  | .mul | .div | .intDiv | .mod | .and => 2
  | .add | .sub | .or => 3
  | .eq | .ne | .lt | .le | .gt | .ge => 4

lemma BinOp.two_le_level (op : BinOp) : 2 ≤ op.level := by cases op <;> decide

lemma BinOp.level_le_four (op : BinOp) : op.level ≤ 4 := by cases op <;> decide

/-- How loosely the left operand of an operator may bind. Comparisons do not associate. -/
def BinOp.leftLevel (op : BinOp) : Nat := if op.isRelational then 3 else op.level

lemma BinOp.leftLevel_eq (op : BinOp) : op.leftLevel = min op.level 3 := by cases op <;> rfl

def BinOp.token : BinOp → String
  | .add => "+"
  | .sub => "-"
  | .mul => "*"
  | .div => "/"
  | .intDiv => "div"
  | .mod => "mod"
  | .and => "and"
  | .or => "or"
  | .eq => "="
  | .ne => "<>"
  | .lt => "<"
  | .le => "<="
  | .gt => ">"
  | .ge => ">="

def UnOp.token : UnOp → String
  | .neg => "-"
  | .not => "not"

namespace Source

/-- How loosely an expression binds. -/
def Expr.level : Expr → Nat
  | .unary .. => 1
  | .binary op .. => op.level
  | _ => 0

/-- A text literal: quotes around it, and each quote inside it twice. -/
def quoted (t : List Char) : Token :=
  '\'' :: t.flatMap (fun c => if c = '\'' then ['\'', '\''] else [c]) ++ ['\'']

/-- Tokens as they are, or in parentheses. -/
def enclosed (bare : Bool) (ts : List Token) : List Token :=
  if bare then ts else "(".toList :: ts ++ [")".toList]

variable (left : BinOp → Nat)

mutual

/-- The tokens of an expression. A real has none. -/
def Expr.tokens : Expr → List Token
  | .int n => [Nat.toDigits 10 n.toInt.toNat]
  | .real _ => []
  | .bool b => [(if b then "true" else "false").toList]
  | .char code => ['#' :: Nat.toDigits 10 code]
  | .text t => [quoted t.toList]
  | .name n => [n.toList]
  | .call f args => f.toList :: "(".toList :: argTokens args ++ [")".toList]
  | .field record f => record.tokens ++ [".".toList, f.toList]
  | .index array position => array.tokens ++ "[".toList :: position.tokens ++ ["]".toList]
  | .unary op x => op.token.toList :: enclosed (x.level ≤ 1) x.tokens
  | .binary op a b =>
      enclosed (a.level ≤ left op) a.tokens ++ op.token.toList ::
        enclosed (b.level < op.level) b.tokens

/-- Arguments with commas between them. -/
def argTokens : List Expr → List Token
  | [] => []
  | e :: rest => e.tokens ++ moreTokens rest

/-- Arguments with a comma before each of them. -/
def moreTokens : List Expr → List Token
  | [] => []
  | e :: rest => ",".toList :: e.tokens ++ moreTokens rest

end

end PascalJvm.Source
