/-!
# Line and column

The place of a character in a text, both numbers from 1. A line ends at a line feed,
or at a carriage return directly followed by one; the column counts characters.
-/
namespace PascalJvm.Text

structure Location where
  line : Nat
  column : Nat
deriving DecidableEq, Repr

namespace Location

def start : Location := ⟨1, 1⟩

def nextLine (l : Location) : Location := ⟨l.line + 1, 1⟩

def nextColumn (l : Location) : Location := ⟨l.line, l.column + 1⟩

/-- The place reached from `l` by passing over a text. -/
def pass (l : Location) : List Char → Location
  | [] => l
  | '\r' :: '\n' :: s => l.nextLine.pass s
  | '\n' :: s => l.nextLine.pass s
  | _ :: s => l.nextColumn.pass s

end Location

/-- The place right after the first `n` characters of `s`. -/
def locationAt (s : List Char) (n : Nat) : Location := Location.start.pass (s.take n)

end PascalJvm.Text
