/-!
# Quoted text

How a text constant is written in a listing: between double quotes, with escapes for quotes,
backslashes and control characters, so that it never breaks a line. `unquote?` reads this
form back.
-/
namespace PascalJvm.Jvm

/-- The control characters: U+0000 to U+001F and U+007F to U+009F. -/
def isControl (c : Char) : Bool := c.toNat < 0x20 || (0x7F ≤ c.toNat && c.toNat < 0xA0)

def hexDigit (n : Nat) : Char := Char.ofNat (if n < 10 then '0'.toNat + n else 'a'.toNat + (n - 10))

def hexValue? (c : Char) : Option Nat :=
  if '0' ≤ c && c ≤ '9' then some (c.toNat - '0'.toNat)
  else if 'a' ≤ c && c ≤ 'f' then some (c.toNat - 'a'.toNat + 10)
  else if 'A' ≤ c && c ≤ 'F' then some (c.toNat - 'A'.toNat + 10)
  else none

/-- The last four hexadecimal digits of a number. -/
def hex4 (n : Nat) : List Char :=
  [hexDigit (n / 0x1000 % 16), hexDigit (n / 0x100 % 16), hexDigit (n / 0x10 % 16), hexDigit (n % 16)]

def escape (c : Char) : List Char :=
  if c = '"' then ['\\', '"']
  else if c = '\\' then ['\\', '\\']
  else if c = '\n' then ['\\', 'n']
  else if c = '\t' then ['\\', 't']
  else if c = '\r' then ['\\', 'r']
  else if isControl c then '\\' :: 'u' :: hex4 c.toNat
  else [c]

def quote (s : List Char) : List Char := '"' :: s.flatMap escape ++ ['"']

/-- The number of four hexadecimal digits. -/
def hex4Value? (a b c d : Char) : Option Nat := do
  return 0x1000 * (← hexValue? a) + 0x100 * (← hexValue? b) + 0x10 * (← hexValue? c) + (← hexValue? d)

/-- The character with a code of four hexadecimal digits. A surrogate is none. -/
def hex4Char? (a b c d : Char) : Option Char := do
  let n ← hex4Value? a b c d
  if n.isValidChar then some (Char.ofNat n) else none

/-- Read escapes up to the closing quote, which ends the text. -/
def unescape? : List Char → Option (List Char)
  | ['"'] => some []
  | '\\' :: '"' :: s => (unescape? s).map ('"' :: ·)
  | '\\' :: '\\' :: s => (unescape? s).map ('\\' :: ·)
  | '\\' :: 'n' :: s => (unescape? s).map ('\n' :: ·)
  | '\\' :: 't' :: s => (unescape? s).map ('\t' :: ·)
  | '\\' :: 'r' :: s => (unescape? s).map ('\r' :: ·)
  | '\\' :: 'u' :: a :: b :: c :: d :: s =>
      (hex4Char? a b c d).bind fun x => (unescape? s).map (x :: ·)
  | c :: s => if c = '"' || c = '\\' then none else (unescape? s).map (c :: ·)
  | [] => none

/-- Read a quoted text. -/
def unquote? : List Char → Option (List Char)
  | '"' :: s => unescape? s
  | _ => none

end PascalJvm.Jvm
