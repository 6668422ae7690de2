import PascalJvm.Text.Blank
import PascalJvm.Text.Search
import PascalJvm.Text.Location
import PascalJvm.Real.Text
import PascalJvm.Log
import PascalJvm.Source.Layout
import PascalJvm.Source.Tree
import PascalJvm.Source.Expression
import PascalJvm.Source.Program
import PascalJvm.Check.Constant
import PascalJvm.Check.Environment
import PascalJvm.Jvm.Assembler
import PascalJvm.Jvm.Quoted
import PascalJvm.Jvm.Class
import PascalJvm.Jvm.Listing
import PascalJvm.Typed.Tree
import PascalJvm.Emit.Default
import PascalJvm.Emit.Expression
import PascalJvm.Emit.Input
import PascalJvm.Emit.Output
import PascalJvm.Emit.Program
import PascalJvm.Check.Expression
import PascalJvm.Check.Program
import PascalJvm.Compile
import PascalJvm.Command.Options
import PascalJvm.Command.Run
import PascalJvm.Main
import PascalJvm.Proofs.Generation
import PascalJvm.Proofs.RoundTrip
import PascalJvm.Proofs.ConstantCode
import PascalJvm.Proofs.Scoping
import PascalJvm.Proofs.Linking
import PascalJvm.Proofs.Comments
import PascalJvm.Proofs.Members
import PascalJvm.Proofs.NestedCalls
import PascalJvm.Proofs.CaseDispatch
import PascalJvm.Proofs.Writing
import PascalJvm.Proofs.CountedLoops
import PascalJvm.Proofs.Designation
import PascalJvm.Proofs.OperandOrder
import PascalJvm.Proofs.DeclaredTypes
import PascalJvm.Proofs.ArrayIndices
import PascalJvm.Proofs.RealComparisons
import PascalJvm.Proofs.Construction
import PascalJvm.Proofs.InitialValues
import PascalJvm.Proofs.IntegerFolding
import PascalJvm.Proofs.NearestElse
import PascalJvm.Proofs.SelectorChains
import PascalJvm.Proofs.CharacterCodes
import PascalJvm.Proofs.LabelLines
import PascalJvm.Proofs.RecordOrder
import PascalJvm.Proofs.Directories
import PascalJvm.Proofs.Splicing
import PascalJvm.Proofs.ReadBlocks
import PascalJvm.Proofs.Delimiter
import PascalJvm.Proofs.QuotedText
import PascalJvm.Proofs.TextLiterals
