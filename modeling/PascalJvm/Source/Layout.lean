/-!
# Layout

Between the items of a program stand blanks and comments. A comment is enclosed in braces
or in parentheses with stars, or runs from two slashes up to the end of the line. A comment
that is never closed is no layout: skipping stops in front of it.
-/
namespace PascalJvm.Source.Layout

/-- Where the scan stands. An enclosed comment remembers the text from its opening on. -/
inductive Mode
  | plain
  | braces (opening : List Char)
  | stars (opening : List Char)
  | slashes

def isSpace (c : Char) : Bool := c = ' ' || c = '\t' || c = '\r' || c = '\n'

/-- Skip from inside a mode. -/
def skipFrom : Mode → List Char → List Char
  | .plain, [] => []
  | .plain, '\x7b' :: s => skipFrom (.braces ('\x7b' :: s)) s
  | .plain, '(' :: '*' :: s => skipFrom (.stars ('(' :: '*' :: s)) s
  | .plain, '/' :: '/' :: s => skipFrom .slashes s
  | .plain, c :: s => if isSpace c then skipFrom .plain s else c :: s
  | .braces opening, [] => opening
  | .braces opening, c :: s => if c = '\x7d' then skipFrom .plain s else skipFrom (.braces opening) s
  | .stars opening, [] => opening
  | .stars _, '*' :: ')' :: s => skipFrom .plain s
  | .stars opening, _ :: s => skipFrom (.stars opening) s
  | .slashes, [] => []
  | .slashes, c :: s => if c = '\n' then skipFrom .plain s else skipFrom .slashes s

/-- The text from its first item on. -/
def skip (s : List Char) : List Char := skipFrom .plain s

end PascalJvm.Source.Layout
