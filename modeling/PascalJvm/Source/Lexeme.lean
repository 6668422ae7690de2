import PascalJvm.Real.Text
import PascalJvm.Ty

/-!
# Lexemes

The smallest items of a program: words, numbers, texts. Each function reads one lexeme at
the very start of a text and gives its meaning with the rest. A word is a maximal run of
letters, digits and underscores; letter case does not distinguish keywords. A literal that
is written properly may still be too large: its meaning is then a `FormError`.
-/
namespace PascalJvm.Source

/-- What can be wrong with a text that follows the grammar. -/
inductive FormError
  | numberTooLarge
  | hexTooLarge
  | charCodeTooLarge
  | arrayDimensions
  | indexDimensions
deriving DecidableEq, Repr

def FormError.message : FormError → String
  | numberTooLarge => "number too large to fit in target type"
  | hexTooLarge => "hex literal out of i32 range"
  | charCodeTooLarge => "char code > 0xFFFF"
  | arrayDimensions => "array dimensions must be 1..3"
  | indexDimensions => "index dimensions must be 1..3"

/-- The meaning of a piece of text, if it has one. -/
abbrev Formed (α : Type) := Except FormError α

namespace Lexeme

def isWordChar (c : Char) : Bool := c.isAlphanum || c = '_'

def isWordStart (c : Char) : Bool := c.isAlpha || c = '_'

/-- The word at the start of a text. -/
def word (s : List Char) : List Char := s.takeWhile isWordChar

/-- What follows the word at the start of a text. -/
def afterWord (s : List Char) : List Char := s.dropWhile isWordChar

def lower (cs : List Char) : List Char := cs.map Char.toLower

/-- Words that cannot be identifiers. -/
def reserved : List String :=
  ["and", "array", "begin", "case", "const", "div", "do", "downto", "else", "end", "for",
    "function", "if", "mod", "not", "of", "or", "otherwise", "procedure", "program", "record",
    "repeat", "then", "to", "type", "until", "var", "while"]

def isReserved (cs : List Char) : Bool := reserved.any fun k => lower cs = k.toList

def keyword? (k : String) (s : List Char) : Option (Unit × List Char) :=
  if lower (word s) = k.toList then some ((), afterWord s) else none

def identifier? : List Char → Option (String × List Char)
  | [] => none
  | c :: s =>
      if isWordStart c && !isReserved (word (c :: s)) then
        some (String.ofList (word (c :: s)), afterWord (c :: s))
      else none

/-- The item of a list whose name is the word at the start. -/
def named? {α : Type} (name : α → String) (items : List α) (s : List Char) :
    Option (α × List Char) :=
  (items.find? fun a => lower (word s) = (name a).toList).map (·, afterWord s)

def bool? (s : List Char) : Option (Bool × List Char) :=
  named? (fun b : Bool => if b then "true" else "false") [true, false] s

def basic? (s : List Char) : Option (Basic × List Char) := named? Basic.name Basic.all s

/-- A nonempty run of characters of one class. -/
def run? (p : Char → Bool) (s : List Char) : Option (List Char × List Char) :=
  match s.takeWhile p with
  | [] => none
  | cs => some (cs, s.dropWhile p)

def digits? (s : List Char) : Option (List Char × List Char) := run? Char.isDigit s

/-- The exponent of a real: the letter e, an optional sign, digits. -/
def exponent? : List Char → Option (Int × List Char)
  | c :: s =>
      if c = 'e' || c = 'E' then
        match s with
        | '-' :: s => (digits? s).map fun (ds, rest) => (-(Decimal.ofDigits ds : Int), rest)
        | '+' :: s => (digits? s).map fun (ds, rest) => ((Decimal.ofDigits ds : Int), rest)
        | s => (digits? s).map fun (ds, rest) => ((Decimal.ofDigits ds : Int), rest)
      else none
  | [] => none

/-- A real has digits after a point, or an exponent, or both. -/
def real? (s : List Char) : Option (Single × List Char) := do
  let (whole, rest) ← digits? s
  let fraction := match rest with
    | '.' :: r => digits? r
    | _ => none
  match fraction with
  | some (ds, rest) =>
      match exponent? rest with
      | some (e, rest) => some ((Decimal.ofParts whole ds e).nearest, rest)
      | none => some ((Decimal.ofParts whole ds 0).nearest, rest)
  | none =>
      let (e, rest) ← exponent? rest
      some ((Decimal.ofParts whole [] e).nearest, rest)

/-- The largest value of an integer literal. -/
def maxInt : Nat := 2147483647

/-- The largest value of a count that is not an integer of the language. -/
def maxCount : Nat := 4294967295

/-- The meaning of decimal digits with a limit. -/
def numeral (limit : Nat) (ds : List Char) : Formed Nat :=
  if Decimal.ofDigits ds ≤ limit then .ok (Decimal.ofDigits ds) else .error .numberTooLarge

def isHexDigit (c : Char) : Bool :=
  c.isDigit || ('a' ≤ c && c ≤ 'f') || ('A' ≤ c && c ≤ 'F')

def hexValue (c : Char) : Nat :=
  if c.isDigit then c.toNat - '0'.toNat else c.toLower.toNat - 'a'.toNat + 10

/-- The meaning of hexadecimal digits. -/
def hexNumeral (ds : List Char) : Formed Nat :=
  let n := ds.foldl (fun n c => 16 * n + hexValue c) 0
  if n ≤ maxInt then .ok n
  else if n < 0x8000000000000000 then .error .hexTooLarge
  else .error .numberTooLarge

/-- An integer literal: decimal digits, or hexadecimal digits after a dollar sign. -/
def integer? (s : List Char) : Option (Formed Int32 × List Char) :=
  match s with
  | '$' :: s => (run? isHexDigit s).map fun (ds, rest) => ((hexNumeral ds).map Int32.ofNat, rest)
  | s => (digits? s).map fun (ds, rest) => ((numeral maxInt ds).map Int32.ofNat, rest)

/-- A count: decimal digits. -/
def count? (s : List Char) : Option (Formed Nat × List Char) :=
  (digits? s).map fun (ds, rest) => (numeral maxCount ds, rest)

/-- The code of a character written by number. -/
def charCode (ds : List Char) : Formed Nat := do
  let n ← numeral maxCount ds
  if n ≤ 0xFFFF then return n else throw .charCodeTooLarge

/-- The inside of a text literal from after its opening quote: a quote is written twice. -/
def textBody? : List Char → Option (List Char × List Char)
  | [] => none
  | '\'' :: '\'' :: s => (textBody? s).map fun (t, rest) => ('\'' :: t, rest)
  | c :: s =>
      if c = '\'' then some ([], s) else (textBody? s).map fun (t, rest) => (c :: t, rest)

/-- A text literal, between quotes. -/
def text? : List Char → Option (List Char × List Char)
  | '\'' :: s => textBody? s
  | _ => none

end Lexeme
end PascalJvm.Source
