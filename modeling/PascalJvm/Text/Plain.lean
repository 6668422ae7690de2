/-!
# Plain text

Text that is told to a reader may hold control characters, and sequences of characters that
steer a terminal. `plain` leaves both out: what is kept are characters that show, tabs and the
ends of lines and pages.

A feed, which is a tab or an end of a line or page, suspends an escape sequence that has not
come to its end: from there on characters show, up to the next control character, and then the
sequence goes on. A character beyond ASCII ends a suspended sequence. Commands and device
strings are not suspended.
-/
namespace PascalJvm.Text

/-- The control sequence that a character stands in. -/
inductive Control
  | outside
  /-- after an escape character -/
  | escape
  /-- inside an escape sequence of more than two characters -/
  | extended
  /-- inside a sequence that an escape character and a bracket open -/
  | parameters
  /-- inside a command, which a bell ends -/
  | command
  /-- at the head of a device string -/
  | deviceHead
  /-- among the parameters in the head of a device string -/
  | deviceParameters
  /-- behind the parameters in the head of a device string -/
  | deviceMarks
  /-- inside a device string, which the byte 9C ends -/
  | deviceString
deriving DecidableEq, Repr

/-- A blank that moves on by more than one column. -/
def isFeed (c : Char) : Bool := c = '\t' || c = '\n' || c = '\x0c' || c = '\r'

/-- Whether a character outside all control sequences shows. -/
def isShown (c : Char) : Bool := isFeed c || (' ' ≤ c && c ≠ '\x7f')

/-- Whether the character is written with the byte 9C. -/
def endsDeviceString (c : Char) : Bool := (String.singleton c).toUTF8.data.contains 0x9c

def isBetween (low high c : Char) : Bool := low ≤ c && c ≤ high

namespace Control

/-- The sequence after a character that is neither an escape nor a cancellation. -/
def following (s : Control) (c : Char) : Control :=
  match s with
  | outside => outside
  | escape =>
      if c = '[' then parameters
      else if c = ']' then command
      else if c = 'P' then deviceHead
      else if c = 'X' || c = '^' || c = '_' then deviceString
      else if isBetween ' ' '/' c then extended
      else if isBetween '0' '~' c then outside
      else escape
  | extended => if isBetween '0' '~' c then outside else extended
  | parameters => if isBetween '@' '~' c then outside else parameters
  | command => if c = '\x07' then outside else command
  | deviceHead =>
      if isBetween ' ' '/' c then deviceMarks
      else if isBetween '0' '?' c then deviceParameters
      else if isBetween '@' '~' c then deviceString
      else deviceHead
  | deviceParameters =>
      if isBetween ' ' '/' c then deviceMarks
      else if isBetween '<' '~' c then deviceString
      else deviceParameters
  | deviceMarks => if isBetween '0' '~' c then deviceString else deviceMarks
  | deviceString => if endsDeviceString c then outside else deviceString

/-- Whether a feed suspends the sequence. -/
def yields : Control → Bool
  | escape | extended | parameters => true
  | _ => false

end Control

/-- How far a text has been read. -/
structure Reading where
  control : Control
  suspended : Bool
deriving DecidableEq, Repr

namespace Reading

def start : Reading := ⟨.outside, false⟩

/-- Whether a character shows. -/
def shows (r : Reading) (c : Char) : Bool :=
  if r.suspended || r.control = .outside then isShown c else r.control.yields && isFeed c

/-- The reading after a character. -/
def next (r : Reading) (c : Char) : Reading :=
  if c = '\x1b' then ⟨.escape, false⟩
  else if c = '\x18' || c = '\x1a' then ⟨.outside, false⟩
  else if r.shows c then
    if c ≤ '\x7f' then ⟨r.control, true⟩ else ⟨.outside, false⟩
  else if r.suspended then ⟨r.control, false⟩
  else ⟨r.control.following c, false⟩

end Reading

/-- The characters that show from a reading on. -/
def plainFrom (r : Reading) : List Char → List Char
  | [] => []
  | c :: rest =>
      if r.shows c then c :: plainFrom (r.next c) rest else plainFrom (r.next c) rest

/-- The text without control characters and control sequences. -/
def plain (s : List Char) : List Char := plainFrom .start s

end PascalJvm.Text
