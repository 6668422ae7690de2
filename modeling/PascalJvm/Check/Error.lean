import PascalJvm.Ty

/-!
# What a check can find

The causes for which a program is refused, and the wording of each.
-/
namespace PascalJvm

/-- Kinds of declared names. -/
inductive DeclKind
  | const
  | type
  | var
  | routine
deriving DecidableEq, Repr

def DeclKind.name : DeclKind → String
  | const => "const"
  | type => "type"
  | var => "var"
  | routine => "routine"

/-- What a name was expected to be. -/
inductive NameUse
  | type
  | const
  | var
  | field
  | identifier
  | routine
deriving DecidableEq, Repr

def NameUse.name : NameUse → String
  | type => "type"
  | const => "const"
  | var => "var"
  | field => "field"
  | identifier => "identifier"
  | routine => "routine in scope"

/-- Places where only certain types are allowed. -/
inductive TypedSpot
  | forVariable
  | forInit
  | forLimit
  | ifCondition
  | whileCondition
  | repeatCondition
  | arrayIndex
  | negation
  | complement
  | arithmetic
  | division
  | intDivLeft
  | intDivRight
  | booleanLeft
  | booleanRight
  | chrArgument
deriving DecidableEq, Repr

def TypedSpot.name : TypedSpot → String
  | forVariable => "for variable"
  | forInit => "for init"
  | forLimit => "for limit"
  | ifCondition => "if condition"
  | whileCondition => "while condition"
  | repeatCondition => "repeat condition"
  | arrayIndex => "array index"
  | negation => "NEG"
  | complement => "NOT"
  | arithmetic => "arithmetic"
  | division => "division"
  | intDivLeft => "div/mod lhs"
  | intDivRight => "div/mod rhs"
  | booleanLeft => "boolean lhs"
  | booleanRight => "boolean rhs"
  | chrArgument => "Chr argument"

inductive CheckError
  | redefined (kind : DeclKind) (scope name : String)
  | duplicateField (scope name : String)
  | aggregateByValue (param routine : String)
  | aggregateResult (function : String)
  | nameConflict (routine name : String)
  | unknown (use : NameUse) (name : String)
  | missingSignature (scope : String)
  | constArity (function : String)
  | constFunction (function : String)
  | constOverflow
  | constNegation
  | constComplement
  | constArithmetic
  | constComparison
  | constOperator
  | ordArgument
  | chrConstant
  | boundNotOrdinal (scope : String)
  | lengthTooLarge (scope : String)
  | lengthNotPositive (scope : String)
  | typeError (spot : TypedSpot)
  | assignAggregate (base : String) (ty : Ty)
  | assignMismatch (base : String) (target value : Ty)
  | caseSelector
  | caseConstantType
  | caseConstantOrdinal
  | writeAggregate
  | widthZero
  | decimalsNotReal
  | readUnsupported (base : String) (ty : Ty)
  | fieldOfNonRecord
  | indexOfNonArray
  | selectorOnValue
  | comparison (a b : Ty)
  | builtinArity (function : String)
  | procedureAsValue (routine : String)
  | argumentCount (routine : String) (expected found : Nat)
  | argumentNotVariable (number : Nat) (routine : String)
  | argumentMismatch (number : Nat) (routine : String) (expected found : Ty)
deriving Repr

namespace CheckError

def message : CheckError → String
  | redefined kind scope name => kind.name ++ s!" redefined in {scope}: {name}"
  | duplicateField scope name => s!"duplicate field name in {scope}: {name}"
  | aggregateByValue param routine =>
      "parameter '" ++ param ++ "' of " ++ routine ++
        " has an aggregate type and must be a var parameter"
  | aggregateResult function => s!"function {function} must return a scalar type"
  | nameConflict routine name =>
      "name conflict in " ++ routine ++ ": '" ++ name ++
        "' duplicates or shadows an existing name (shadowing is not allowed)"
  | unknown use name => "unknown " ++ use.name ++ ": " ++ name
  | missingSignature scope => s!"internal: missing routine signature for {scope}"
  | constArity function => s!"{function} requires 1 argument in const expr"
  | constFunction function => s!"unsupported const function: {function}"
  | constOverflow => "integer overflow or division by zero in const expr"
  | constNegation => "NEG on non-numeric const"
  | constComplement => "NOT on non-boolean const"
  | constArithmetic => "arithmetic on non-numeric const"
  | constComparison => "comparison of non-ordinal consts"
  | constOperator => "unsupported operator in const expr"
  | ordArgument => "Ord argument must be ordinal"
  | chrConstant => "Chr const argument must be an integer in 0..65535"
  | boundNotOrdinal scope => s!"array bound in {scope} must be an ordinal constant"
  | lengthTooLarge scope => s!"array length in {scope} is too large"
  | lengthNotPositive scope => s!"array length in {scope} must be positive"
  | typeError spot => "type error in " ++ spot.name
  | assignAggregate base ty =>
      s!"assignment to {base} of type " ++ ty.describe ++ " is not supported"
  | assignMismatch base target value =>
      s!"type mismatch in assignment to {base}: expected " ++ target.describe ++ ", got " ++
        value.describe
  | caseSelector => "case selector must be an ordinal value"
  | caseConstantType => "case arm constant type mismatch"
  | caseConstantOrdinal => "case arm constant must be ordinal"
  | writeAggregate => "Write/WriteLn supports only scalar values"
  | widthZero => "field width must be at least 1"
  | decimalsNotReal => "decimal places are only allowed for real values"
  | readUnsupported base ty => s!"Read on {base} of type " ++ ty.describe ++ " is not supported"
  | fieldOfNonRecord => "field on non-record lvalue"
  | indexOfNonArray => "index on non-array lvalue"
  | selectorOnValue => "selector on a non-variable is not supported"
  | comparison a b => "type mismatch in comparison: " ++ a.describe ++ " and " ++ b.describe
  | builtinArity function => s!"{function} requires 1 argument"
  | procedureAsValue routine => s!"procedure used as expression: {routine}"
  | argumentCount routine expected found =>
      s!"argument count mismatch for {routine}: expected {expected}, got {found}"
  | argumentNotVariable number routine =>
      s!"argument #{number} in call to {routine} must be lvalue for var parameter"
  | argumentMismatch number routine expected found =>
      s!"argument #{number} type mismatch in call to {routine}: expected " ++
        expected.describe ++ ", got " ++ found.describe

end CheckError
end PascalJvm
