import PascalJvm.Text.Search

/-!
# Paths

A path is a text with names between slashes. Doubled slashes and names `.` inside a path
do not count as names. Names and paths have a greatest length.
-/
namespace PascalJvm.Files.Path

/-- The texts between the slashes. -/
def pieces (p : String) : List String := (Text.split '/' p.toList).map String.ofList

def isAbsolute (p : String) : Bool := p.toList.head? = some '/'

/-- A path taken from the directory `base`. -/
def join (base p : String) : String :=
  if isAbsolute p || base.isEmpty then p
  else if base.toList.getLast? = some '/' then base ++ p
  else base ++ "/" ++ p

/-- A piece that is no name. -/
def isIdle (piece : String) : Bool := piece = "" || piece = "."

/-- The names in a path. -/
def names (p : String) : List String := (pieces p).filter (!isIdle ·)

/-- The most bytes that a name can have. -/
def maxNameBytes : Nat := 255

/-- The most bytes that a path can have. -/
def maxBytes : Nat := 4095

/-- The pieces up to the last name. -/
def upToName (ps : List String) : List String := (ps.reverse.dropWhile isIdle).reverse

/-- The path without its last name. A path that has a single name lies in the empty path,
and neither the root nor the empty path lies in another. -/
def parent? (p : String) : Option String :=
  match pieces p with
  | [] => none
  | first :: rest =>
      match upToName rest with
      | [] => if first = "" then none else some ""
      | names =>
          match upToName names.dropLast with
          | [] => some (if first = "" then "/" else first)
          | kept => some (Text.join "/" (first :: kept))

/-- The path and the paths that it lies in, from the inside out; at most `n` of them. -/
def ancestorsWithin : Nat → String → List String
  | 0, _ => []
  | n + 1, p =>
      match parent? p with
      | none => [p]
      | some up => p :: ancestorsWithin n up

/-- The path and the paths that it lies in. Each of them is shorter than the one before. -/
def ancestors (p : String) : List String := ancestorsWithin (p.length + 1) p

end PascalJvm.Files.Path
