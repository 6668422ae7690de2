/-!
# Types

The types of the language. An enumeration and a record are known by their name; a record
also carries its fields in declaration order, and an array its first index, its length and
its element type. An array of several dimensions is an array of arrays.
-/
namespace PascalJvm

inductive Basic
  | integer
  | real
  | boolean
  | char
  | string
deriving DecidableEq, Repr

namespace Basic

def name : Basic → String
  | integer => "integer"
  | real => "real"
  | boolean => "boolean"
  | char => "char"
  | string => "string"

def all : List Basic := [integer, real, boolean, char, string]

end Basic

inductive Ty
  | basic (b : Basic)
  | enum (name : String)
  | record (name : String) (fields : List (String × Ty))
  | array (low : Int32) (len : Nat) (elem : Ty)
deriving Repr, Inhabited

namespace Ty

abbrev integer : Ty := .basic .integer
abbrev real : Ty := .basic .real
abbrev boolean : Ty := .basic .boolean
abbrev char : Ty := .basic .char
abbrev string : Ty := .basic .string

/-- Whether the type is the basic type `b`. -/
def is (b : Basic) : Ty → Bool
  | .basic c => c = b
  | _ => false

/-- Records and arrays: values that live in an object of their own. -/
def isAggregate : Ty → Bool
  | .record .. | .array .. => true
  | _ => false

def isNumeric (t : Ty) : Bool := t.is .integer || t.is .real

/-- Types whose values are numbered by integers. -/
def isOrdinal : Ty → Bool
  | .basic .integer | .basic .char | .basic .boolean | .enum _ => true
  | _ => false

def isBasic : Ty → Bool
  | .basic _ => true
  | _ => false

/-- Same type: enumerations and records by name, arrays by bounds and element. -/
def same : Ty → Ty → Bool
  | .basic a, .basic b => a = b
  | .enum a, .enum b => a = b
  | .record a _, .record b _ => a = b
  | .array lowA lenA a, .array lowB lenB b => lowA = lowB && lenA = lenB && same a b
  | _, _ => false

/-- A value of type `value` may be stored in a variable of type `target`: the same type, or
an integer widened to a real. -/
def accepts (target value : Ty) : Bool :=
  target.same value || (target.is .real && value.is .integer)

/-- The last index of an array. -/
def lastIndex (low : Int32) (len : Nat) : Int := low.toInt + len - 1

/-- How messages name a type. -/
def describe : Ty → String
  | .basic b => b.name
  | .enum n => n
  | .record n _ => n
  | .array low len elem =>
      "array[" ++ toString low.toInt ++ ".." ++ toString (lastIndex low len) ++ "] of " ++
        elem.describe

end Ty

/-- Fields in declaration order, one per name: a repeated name keeps its place and takes
the new type. -/
def putField (name : String) (ty : Ty) : List (String × Ty) → List (String × Ty)
  | [] => [(name, ty)]
  | (n, t) :: rest => if n = name then (n, ty) :: rest else (n, t) :: putField name ty rest

end PascalJvm
