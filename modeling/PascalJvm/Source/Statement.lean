import PascalJvm.Source.Expression

/-!
# Grammar of statements

Nested statements are read by a parser that is handed in, as for expressions, and `statement`
ties the knot. An `else` goes to the nearest statement that can take it, because a conditional
takes one whenever it can.
-/
namespace PascalJvm.Source

open Source.Parser

variable {α : Type}

/-- Statements with semicolons between them; any of them may be missing. -/
def statementList (sub : Parser (Formed Stmt)) : Parser (Formed (List Stmt)) := do
  let first ← optional sub
  let more ← many (do symbol ";"; optional sub)
  return Formed.all ((first :: more).filterMap id)

def compoundOver (sub : Parser (Formed Stmt)) : Parser (Formed Stmt) := rule do
  keyword "begin"
  let body ← statementList sub
  keyword "end"
  return body.map .compound

def ifOver (sub : Parser (Formed Stmt)) : Parser (Formed Stmt) := rule do
  keyword "if"
  let cond ← expression
  keyword "then"
  let yes ← sub
  let no ← optional (do keyword "else"; sub)
  return do return .ifThen (← cond) (← yes) (← Formed.option no)

/-- The constants of a branch, and the statement they select. -/
def caseArm (sub : Parser (Formed Stmt)) : Parser (Formed (List ConstExpr × Stmt)) := rule do
  let consts ← commaList constExpression
  symbol ":"
  let body ← sub
  return do return (← Formed.all consts, ← body)

/-- The statements for a value that no branch lists. -/
def caseDefault (sub : Parser (Formed Stmt)) : Parser (Formed Stmt) := rule do
  orElse (keyword "else") (keyword "otherwise")
  let body ← statementList sub
  return body.map .compound

def caseOver (sub : Parser (Formed Stmt)) : Parser (Formed Stmt) := rule do
  keyword "case"
  let selector ← expression
  keyword "of"
  let first ← caseArm sub
  let more ← many (do symbol ";"; caseArm sub)
  let _ ← optional (symbol ";")
  let otherwise ← optional (caseDefault sub)
  let _ ← optional (symbol ";")
  keyword "end"
  return do return .caseOf (← selector) (← Formed.all (first :: more)) (← Formed.option otherwise)

def whileOver (sub : Parser (Formed Stmt)) : Parser (Formed Stmt) := rule do
  keyword "while"
  let cond ← expression
  keyword "do"
  let body ← sub
  return do return .whileDo (← cond) (← body)

def repeatOver (sub : Parser (Formed Stmt)) : Parser (Formed Stmt) := rule do
  keyword "repeat"
  let body ← statementList sub
  keyword "until"
  let cond ← expression
  return do return .repeatUntil (← body) (← cond)

def forOver (sub : Parser (Formed Stmt)) : Parser (Formed Stmt) := rule do
  keyword "for"
  let counter ← identifier
  symbol ":="
  let first ← expression
  let down ← orElse (worded "downto" true) (worded "to" false)
  let last ← expression
  keyword "do"
  let body ← sub
  return do return .forDo counter (← first) (← last) down (← body)

/-- A sign before a width; a minus sign puts the value to the left. -/
def widthSign : Parser Bool := rule (orElse (marked "-" true) (marked "+" false))

def fieldWidth : Parser (Formed FieldWidth) := rule do
  symbol ":"
  let left ← optional widthSign
  let width ← lexeme Lexeme.count?
  let decimals ← optional (do symbol ":"; lexeme Lexeme.count?)
  return do return ⟨left.getD false, ← width, ← Formed.option decimals⟩

def writeArg : Parser (Formed WriteArg) := do
  let value ← expression
  let width ← optional fieldWidth
  return do return ⟨← value, ← Formed.option width⟩

def writelnStatement : Parser (Formed Stmt) := rule do
  keyword "writeln"
  let args ← optional (between "(" ")" (optional (commaList writeArg)))
  return do return .write true (← Formed.all (args.join.getD []))

def writeStatement : Parser (Formed Stmt) := rule do
  keyword "write"
  let args ← between "(" ")" (commaList writeArg)
  return do return .write false (← Formed.all args)

def readlnStatement : Parser (Formed Stmt) := rule do
  keyword "readln"
  let targets ← optional (between "(" ")" (commaList access))
  return do return .read true (← Formed.all (targets.getD []))

def readStatement : Parser (Formed Stmt) := rule do
  keyword "read"
  let targets ← between "(" ")" (commaList access)
  return do return .read false (← Formed.all targets)

def assignment : Parser (Formed Stmt) := rule do
  let target ← access
  symbol ":="
  let value ← expression
  return do return .assign (← target) (← value)

def callStatement : Parser (Formed Stmt) := rule do
  let routine ← identifier
  let args ← optional (between "(" ")" (optional (commaList expression)))
  return do return .call routine (← Formed.all (args.join.getD []))

/-- A statement whose nested statements are read by `sub`. -/
def statementOver (sub : Parser (Formed Stmt)) : Parser (Formed Stmt) := firstOf
  [compoundOver sub, ifOver sub, caseOver sub, whileOver sub, repeatOver sub, forOver sub,
    writelnStatement, writeStatement, readlnStatement, readStatement, assignment, callStatement]

/-- A statement with less than `n` levels of nesting. -/
def statementWithin : Nat → Parser (Formed Stmt)
  | 0 => fail
  | n + 1 => statementOver (statementWithin n)

def statement : Parser (Formed Stmt) := fun s => statementWithin (s.length + 1) s

end PascalJvm.Source
