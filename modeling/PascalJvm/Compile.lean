import PascalJvm.Check.Program
import PascalJvm.Emit.Program
import PascalJvm.Hint
import PascalJvm.Include.Expand
import PascalJvm.Jvm.Listing
import PascalJvm.Source.Program

/-!
# Compilation

From a source text to the classes of the program. The stages are the expansion of includes,
parsing, the collection of declarations, checking and code generation; the first one that
fails decides the error. Messages about the source point into its expanded text.
-/
namespace PascalJvm

inductive CompileError
  | inclusion (e : Include.IncludeError)
  | parse (source : List Char) (e : Source.ParseError)
  | check (source : List Char) (e : CheckError)
  | emit (e : Emit.EmitError)

def CompileError.message : CompileError → String
  | inclusion e => e.message
  | parse source e => Hint.annotate source e.message
  | check source e => Hint.annotate source e.message
  | emit e => e.message

namespace Compile

/-- The checked program of an expanded text. -/
def checked (source : List Char) : Traced CompileError Typed.Program := do
  let p ← Traced.ofExcept ((Source.Program.parse source).mapError (.parse source))
  let env ← Traced.ofExcept ((Environment.ofProgram p).mapError (.check source))
  (Check.program env p).mapError (.check source)

/-- The checked program of a text whose includes are taken from the directory `base`. -/
def front (store : Files.Store) (base : String) (text : List Char) :
    Traced CompileError Typed.Program := do
  let source ← (Include.expand store base text).mapError .inclusion
  checked source

/-- The classes of a checked program. -/
def back (policy : Emit.CasePolicy) (p : Typed.Program) :
    Traced CompileError (List Jvm.ClassFile) :=
  (Emit.program policy p).mapError .emit

/-- The name of the program class. -/
def className (p : Typed.Program) (chosen : Option String) : String := chosen.getD p.name

/-- The listings of classes, with the names of the classes. -/
def listings (name : String) (classes : List Jvm.ClassFile) : List (String × String) :=
  classes.map (Jvm.ClassFile.listing name)

end Compile
end PascalJvm
