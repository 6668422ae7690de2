import PascalJvm.Source.Statement
import PascalJvm.Text.Location

/-!
# Grammar of programs

Declaration sections may come in any order and any number; a block gathers them by kind.
`Program.parse` reads a whole text. A text that does not follow the grammar is reported with
the furthest place that was marked, and only a text that follows it can have a `FormError`.
-/
namespace PascalJvm.Source

open Source.Parser

/-- Why a text is no program. -/
inductive ParseError
  | grammar (place : Text.Location)
  | form (e : FormError)
deriving DecidableEq, Repr

def ParseError.message : ParseError → String
  | grammar place => s!"parse error at line {place.line}, column {place.column}"
  | form e => e.message

def typeRef : Parser TypeRef :=
  orElse (do return .basic (← lexeme Lexeme.basic?)) (do return .named (← identifier))

/-- Names with one type for all of them. -/
def typedNames : Parser (List (String × TypeRef)) := rule do
  let names ← commaList identifier
  symbol ":"
  let ty ← typeRef
  return names.map (·, ty)

/-- One or more declarations, each with a semicolon after it. -/
def declarations {α : Type} (p : Parser α) : Parser (List α) := do
  let first ← (do let a ← p; symbol ";"; return a)
  let more ← many (do let a ← p; symbol ";"; return a)
  return first :: more

def constDeclaration : Parser (Formed (String × ConstExpr)) := rule do
  let name ← identifier
  symbol "="
  let value ← constExpression
  return value.map (name, ·)

def recordType : Parser TypeSpec := rule do
  keyword "record"
  let fields ← optional (do
    let first ← typedNames
    let more ← many (do symbol ";"; typedNames)
    let _ ← optional (symbol ";")
    return (first :: more).flatten)
  keyword "end"
  return .record (fields.getD [])

def indexRange : Parser (Formed IndexRange) := do
  let first ← constExpression
  let second ← optional (do symbol ".."; constExpression)
  return match second with
    | none => do return ⟨none, ← first⟩
    | some high => do return ⟨some (← first), ← high⟩

/-- An array has one to three dimensions. -/
def arrayType : Parser (Formed TypeSpec) := rule do
  keyword "array"
  let ranges ← between "[" "]" (commaList indexRange)
  keyword "of"
  let elem ← typeRef
  return do
    let ranges ← Formed.all ranges
    if ranges.length ≤ 3 then return .array ranges elem else throw .arrayDimensions

def enumType : Parser TypeSpec := rule do
  return .enum (← between "(" ")" (commaList identifier))

def typeSpec : Parser (Formed TypeSpec) := firstOf
  [do return .ok (← recordType),
    arrayType,
    do return .ok (← enumType),
    do return .ok (.basic (← lexeme Lexeme.basic?)),
    do return .ok (.alias (← identifier))]

def typeDeclaration : Parser (Formed (String × TypeSpec)) := rule do
  let name ← identifier
  symbol "="
  let spec ← typeSpec
  return spec.map (name, ·)

def paramGroup : Parser (List Param) := rule do
  let byRef ← optional (keyword "var")
  let names ← commaList identifier
  symbol ":"
  let ty ← typeRef
  return names.map fun n => ⟨n, ty, byRef.isSome⟩

def formalParams : Parser (List Param) := rule (between "(" ")" do
  let first ← paramGroup
  let more ← many (do symbol ";"; paramGroup)
  return (first :: more).flatten)

/-- One section of declarations. -/
inductive Section
  | consts (decls : List (String × ConstExpr))
  | types (decls : List (String × TypeSpec))
  | vars (decls : List (String × TypeRef))
  | routine (heading : Heading) (block : Block)

def constSection : Parser (Formed Section) := rule do
  keyword "const"
  return (Formed.all (← declarations constDeclaration)).map .consts

def typeSection : Parser (Formed Section) := rule do
  keyword "type"
  return (Formed.all (← declarations typeDeclaration)).map .types

def varSection : Parser (Formed Section) := rule do
  keyword "var"
  return .ok (.vars (← declarations typedNames).flatten)

def procedureOver (sub : Parser (Formed Block)) : Parser (Formed Section) := rule do
  keyword "procedure"
  let name ← identifier
  let params ← optional formalParams
  symbol ";"
  let block ← sub
  symbol ";"
  return block.map (.routine ⟨name, params.getD [], none⟩ ·)

def functionOver (sub : Parser (Formed Block)) : Parser (Formed Section) := rule do
  keyword "function"
  let name ← identifier
  let params ← optional formalParams
  symbol ":"
  let result ← typeRef
  symbol ";"
  let block ← sub
  symbol ";"
  return block.map (.routine ⟨name, params.getD [], some result⟩ ·)

/-- Put a section in front of a block. -/
def Section.prepend (b : Block) : Section → Block
  | .consts ds => ⟨ds ++ b.consts, b.types, b.vars, b.routines, b.body⟩
  | .types ds => ⟨b.consts, ds ++ b.types, b.vars, b.routines, b.body⟩
  | .vars ds => ⟨b.consts, b.types, ds ++ b.vars, b.routines, b.body⟩
  | .routine heading block => ⟨b.consts, b.types, b.vars, (heading, block) :: b.routines, b.body⟩

/-- Gather sections by kind, each kind in order. -/
def Block.ofSections (sections : List Section) (body : Stmt) : Block :=
  sections.foldr (fun s b => s.prepend b) ⟨[], [], [], [], body⟩

/-- A block whose nested blocks are read by `sub`. -/
def blockOver (sub : Parser (Formed Block)) : Parser (Formed Block) := do
  let sections ← many (firstOf
    [constSection, typeSection, varSection, procedureOver sub, functionOver sub])
  let body ← compoundOver statement
  return do return Block.ofSections (← Formed.all sections) (← body)

/-- A block with less than `n` levels of nesting. -/
def blockWithin : Nat → Parser (Formed Block)
  | 0 => fail
  | n + 1 => blockOver (blockWithin n)

def block : Parser (Formed Block) := fun s => blockWithin (s.length + 1) s

/-- A program; the names in parentheses after its name mean nothing. -/
def program : Parser (Formed Program) := do
  keyword "program"
  let name ← identifier
  let _ ← optional (between "(" ")" (commaList identifier))
  symbol ";"
  let block ← block
  symbol "."
  endOfText
  return block.map (⟨name, ·⟩)

/-- Read a program from its text. -/
def Program.parse (text : List Char) : Except ParseError Program :=
  match program text with
  | ⟨some (p, _), _⟩ => p.mapError .form
  | ⟨none, missed⟩ =>
      .error (.grammar (Text.locationAt text (text.length - missed.getD text.length)))

end PascalJvm.Source
