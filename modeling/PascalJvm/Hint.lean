import PascalJvm.Text.Blank
import PascalJvm.Text.Search

/-!
# Hints

A message that names something gets the place of the first occurrence of that name in the
source, unless it already has a place. The column counts bytes.
-/
namespace PascalJvm.Hint

/-- Messages that end with a name begin like this. -/
def openings : List String :=
  ["unknown type: ", "unknown identifier: ", "unknown field: ", "unknown var: ",
    "unknown routine in scope: ", "unknown const: ", "procedure used as expression: "]

/-- The first result among the candidates. -/
def trailingName? (message : List Char) : Option (List Char) :=
  (openings.findSome? fun o => Text.after? o.toList message).map Text.trim

/-- The name of the routine in a message about a call. -/
def calledName? (message : List Char) : Option (List Char) :=
  match Text.breakOn "call to ".toList message with
  | none => none
  | some (_, tail) =>
      match tail.takeWhile fun c => c ≠ ':' && !Text.isBlank c with
      | [] => none
      | name => some name

/-- The name that a message is about. -/
def symbol? (message : List Char) : Option (List Char) :=
  match trailingName? message with
  | some name => some name
  | none => calledName? message

/-- The line and the byte column of the first line that has the name, counting from `n`. -/
def findFrom (name : List Char) (n : Nat) : List (List Char) → Option (Nat × Nat)
  | [] => none
  | line :: rest =>
      match Text.breakOn name line with
      | some (before, _) => some (n, Text.byteSize before + 1)
      | none => findFrom name (n + 1) rest

/-- The place of the first occurrence of a name in a source. -/
def find (source name : List Char) : Option (Nat × Nat) :=
  if name.isEmpty then none else findFrom name 1 (Text.lines source)

/-- Whether the message already tells a place. -/
def isPlaced (message : List Char) : Bool :=
  Text.contains "line ".toList message && Text.contains "column ".toList message

/-- The message with the place of the name that it is about. -/
def annotate (source : List Char) (message : String) : String :=
  if isPlaced message.toList then message
  else
    match (symbol? message.toList).bind (find source) with
    | some (line, column) => message ++ s!" at line {line}, column {column}"
    | none => message

end PascalJvm.Hint
