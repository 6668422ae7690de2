import PascalJvm.Ty

/-!
# Signatures

A routine as its callers see it: the method that holds its code, how each argument is
passed, and for a function the type of its result.
-/
namespace PascalJvm

/-- How an argument is passed. -/
structure Passing where
  ty : Ty
  byRef : Bool
deriving Repr

/-- A routine as callers see it. A function has a result. -/
structure Signature where
  method : String
  params : List Passing
  result : Option Ty
deriving Repr

namespace Passing

/-- A scalar passed by reference travels in a cell, an array with one element. -/
def inCell (p : Passing) : Bool := p.byRef && !p.ty.isAggregate

end Passing
end PascalJvm
