import PascalJvm.Source.Parser
import PascalJvm.Source.Tree

/-!
# Grammar of expressions

Operators bind in four layers: unary operators, then `*` and its kind, then `+` and its
kind, then at most one comparison. Operators of the two middle layers associate to the left.
Constant expressions have the first three layers and no selectors.

The nested expressions of a layer are read by a parser that is handed in, so that each layer
is a plain definition; `expression` ties the knot. Nesting is bounded by the length of the
text, since every nested expression begins at least one character later.
-/
namespace PascalJvm.Source

open Source.Parser

variable {α : Type}

def comparisonOp : Parser BinOp := rule (firstOf
  [marked "<=" .le, marked ">=" .ge, marked "<>" .ne, marked "=" .eq, marked "<" .lt,
    marked ">" .gt])

def additionOp : Parser BinOp := rule (firstOf
  [marked "+" .add, marked "-" .sub, worded "or" .or])

def multiplicationOp : Parser BinOp := rule (firstOf
  [marked "*" .mul, marked "/" .div, worded "div" .intDiv, worded "mod" .mod, worded "and" .and])

/-- A sign or `not`. A plus sign means nothing. -/
def unaryOp : Parser (Option UnOp) := rule (firstOf
  [marked "-" (some .neg), marked "+" none, worded "not" (some .not)])

/-- Apply the operators in front of an operand, the last one first. -/
def applyUnary (node : UnOp → α → α) : List (Option UnOp) → α → α
  | [], x => x
  | none :: ops, x => applyUnary node ops x
  | some op :: ops, x => node op (applyUnary node ops x)

/-- An operand with unary operators in front of it. -/
def unaryLayer (node : UnOp → α → α) (operand : Parser (Formed α)) : Parser (Formed α) := do
  let ops ← many unaryOp
  let x ← operand
  return x.map (applyUnary node ops)

/-- Join operands from the left. -/
def joinLeft (node : BinOp → α → α → α) : Formed α → List (BinOp × Formed α) → Formed α
  | x, [] => x
  | x, (op, y) :: more => joinLeft node (do return node op (← x) (← y)) more

/-- Operands with binary operators of one layer between them. -/
def binaryLayer (node : BinOp → α → α → α) (op : Parser BinOp) (operand : Parser (Formed α)) :
    Parser (Formed α) := do
  let first ← operand
  let more ← many (do let o ← op; let x ← operand; return (o, x))
  return joinLeft node first more

/-- One operand, or two with a comparison between them. -/
def comparisonLayer (operand : Parser (Formed Expr)) : Parser (Formed Expr) := do
  let a ← operand
  let more ← optional (do let o ← comparisonOp; let b ← operand; return (o, b))
  return match more with
    | none => a
    | some (op, b) => do return .binary op (← a) (← b)

/-- A character written by number. Its digits are a rule of their own. -/
def charCode : Parser (Formed Nat) := rule fun s =>
  match s with
  | '#' :: s =>
      match Lexeme.digits? s with
      | some (ds, rest) => ⟨some (Lexeme.charCode ds, rest), none⟩
      | none => ⟨none, some s.length⟩
  | _ => ⟨none, none⟩

/-- A literal, each kind with the node that holds it. -/
def literal (bool : Bool → α) (real : Single → α) (int : Int32 → α) (text : List Char → α)
    (char : Nat → α) : Parser (Formed α) := firstOf
  [do return .ok (bool (← lexeme Lexeme.bool?)),
    do return .ok (real (← lexeme Lexeme.real?)),
    do return (← lexeme Lexeme.integer?).map int,
    do return .ok (text (← lexeme Lexeme.text?)),
    do return (← charCode).map char]

/-- A field selector, which is a point and a name. -/
def fieldSelector : Parser (Formed Selector) := rule do
  symbol "."
  return .ok (.field (← identifier))

/-- One to three positions in brackets. -/
def indexSelector (sub : Parser (Formed Expr)) : Parser (Formed Selector) := rule do
  let positions ← between "[" "]" (commaList sub)
  return do
    let positions ← Formed.all positions
    if positions.length ≤ 3 then return .index positions else throw .indexDimensions

/-- A variable with its selectors. -/
def accessOver (sub : Parser (Formed Expr)) : Parser (Formed Access) := rule do
  let base ← identifier
  let selectors ← many (orElse fieldSelector (indexSelector sub))
  return do return ⟨base, ← Formed.all selectors⟩

/-- A name with arguments in parentheses, perhaps none. -/
def callOver (sub : Parser (Formed Expr)) : Parser (Formed Expr) := rule do
  let f ← identifier
  let args ← between "(" ")" (optional (commaList sub))
  return do return .call f (← Formed.all (args.getD []))

def primary (sub : Parser (Formed Expr)) : Parser (Formed Expr) := rule (firstOf
  [between "(" ")" sub,
    literal .bool .real .int (fun t => .text (String.ofList t)) .char,
    callOver sub,
    do return (← accessOver sub).map Access.toExpr])

/-- An expression whose nested expressions are read by `sub`. -/
def expressionOver (sub : Parser (Formed Expr)) : Parser (Formed Expr) :=
  comparisonLayer (binaryLayer .binary additionOp
    (binaryLayer .binary multiplicationOp (unaryLayer .unary (primary sub))))

/-- An expression with less than `n` levels of nesting. -/
def expressionWithin : Nat → Parser (Formed Expr)
  | 0 => fail
  | n + 1 => expressionOver (expressionWithin n)

def expression : Parser (Formed Expr) := fun s => expressionWithin (s.length + 1) s

/-- A variable with its selectors, as a target. -/
def access : Parser (Formed Access) := accessOver expression

/-- A text of one character is a character. -/
def constText : List Char → ConstExpr
  | [c] => .char c.toNat
  | t => .text (String.ofList t)

def constCallOver (sub : Parser (Formed ConstExpr)) : Parser (Formed ConstExpr) := rule do
  let f ← identifier
  let args ← between "(" ")" (commaList sub)
  return do return .call f (← Formed.all args)

def constPrimary (sub : Parser (Formed ConstExpr)) : Parser (Formed ConstExpr) := rule (firstOf
  [between "(" ")" sub,
    literal .bool .real .int constText .char,
    constCallOver sub,
    do return .ok (.name (← identifier))])

def constExpressionOver (sub : Parser (Formed ConstExpr)) : Parser (Formed ConstExpr) :=
  binaryLayer .binary additionOp
    (binaryLayer .binary multiplicationOp (unaryLayer .unary (constPrimary sub)))

/-- A constant expression with less than `n` levels of nesting. -/
def constExpressionWithin : Nat → Parser (Formed ConstExpr)
  | 0 => fail
  | n + 1 => constExpressionOver (constExpressionWithin n)

def constExpression : Parser (Formed ConstExpr) := fun s => constExpressionWithin (s.length + 1) s

end PascalJvm.Source
