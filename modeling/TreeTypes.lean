import TreeTypes.Main
import TreeTypes.Proofs.Traced
import TreeTypes.Proofs.Expr.Format
import TreeTypes.Proofs.Expr.Decoding
import TreeTypes.Proofs.Expr.Places
import TreeTypes.Proofs.Grammar.WellFormed
import TreeTypes.Proofs.Grammar.Built
import TreeTypes.Proofs.Hoisting.Success
import TreeTypes.Proofs.Hoisting.Unfolding
import TreeTypes.Proofs.Hoisting.NormalForm
import TreeTypes.Proofs.Hoisting.Conservation
import TreeTypes.Proofs.Hoisting.BreadthFirst
import TreeTypes.Proofs.Hoisting.Acceptance
import TreeTypes.Proofs.References
import TreeTypes.Proofs.Emission.Traversal
import TreeTypes.Proofs.Emission.Splicing
import TreeTypes.Proofs.Emission.Transparency
import TreeTypes.Proofs.TypeDecl.Typing
import TreeTypes.Proofs.Generation.Dangling
import TreeTypes.Proofs.ParseTree.Hoisting
import TreeTypes.Proofs.ParseTree.Types
import TreeTypes.Proofs.Generation.Outcome
import TreeTypes.Proofs.Generation.Closed
import TreeTypes.Proofs.Generation.Builtin
import TreeTypes.Proofs.Generation.DeclarationOrder
import TreeTypes.Proofs.Emission.Preorder
import TreeTypes.Proofs.Expr.Visiting
import TreeTypes.Proofs.Grammar.Reading
import TreeTypes.Proofs.Expr.Erasure
import TreeTypes.Proofs.Text.ReadingBack
import TreeTypes.Proofs.TypeDecl.ReadingBack
import TreeTypes.Proofs.TypeDecl.Unambiguous
import TreeTypes.Proofs.Expr.FirstFault
import TreeTypes.Proofs.Grammar.Content
import TreeTypes.Proofs.Grammar.Reporting
import TreeTypes.Proofs.References.Graph
import TreeTypes.Proofs.References.Violation
import TreeTypes.Proofs.Grammar.Assembly
import TreeTypes.Proofs.Hoisting.NestedChoice
import TreeTypes.Proofs.Generation.ConstructorNames
import TreeTypes.Proofs.Text.Order
import TreeTypes.Proofs.Settings.Section
import TreeTypes.Proofs.Settings.Table
import TreeTypes.Proofs.Naming.Counters
import TreeTypes.Proofs.Hoisting.Replacement
import TreeTypes.Proofs.FileTree
import TreeTypes.Proofs.CommandLine.Ending
