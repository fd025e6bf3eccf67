import LexicalScope.Command.Volume
import LexicalScope.Main
import LexicalScope.Proofs.Analysis
import LexicalScope.Proofs.Binding.Alike
import LexicalScope.Proofs.Binding.Break
import LexicalScope.Proofs.Binding.Exactness
import LexicalScope.Proofs.Binding.Merge
import LexicalScope.Proofs.BindingSite
import LexicalScope.Proofs.BlockScope
import LexicalScope.Proofs.Command.JsonListing
import LexicalScope.Proofs.Command.Report
import LexicalScope.Proofs.Concatenation.Append
import LexicalScope.Proofs.Concatenation.Frame
import LexicalScope.Proofs.Concatenation.Law
import LexicalScope.Proofs.Encapsulation
import LexicalScope.Proofs.FailFast
import LexicalScope.Proofs.Fragment.Composition
import LexicalScope.Proofs.HostEmbedding
import LexicalScope.Proofs.Matching.Arrange
import LexicalScope.Proofs.Matching.Binding
import LexicalScope.Proofs.Matching.Opened
import LexicalScope.Proofs.Matching.Tree
import LexicalScope.Proofs.Matching.Walk
import LexicalScope.Proofs.Metadata.Law
import LexicalScope.Proofs.Naming.Law
import LexicalScope.Proofs.ParseResult
import LexicalScope.Proofs.Pattern.Flattening
import LexicalScope.Proofs.Pattern.Target
import LexicalScope.Proofs.Permutation
import LexicalScope.Proofs.Prologue
import LexicalScope.Proofs.Reference.Alike
import LexicalScope.Proofs.Reference.Exactness
import LexicalScope.Proofs.Reference.Partition
import LexicalScope.Proofs.Reference.Sorted
import LexicalScope.Proofs.Renaming.Parameter
import LexicalScope.Proofs.Resolution.Agreement
import LexicalScope.Proofs.Source
import LexicalScope.Proofs.Visiting.Law
import LexicalScope.Proofs.Walk.Below
import LexicalScope.Proofs.Walker
import LexicalScope.Proofs.Workspace.Replacement
import LexicalScope.Proofs.Wrapping.Law
import LexicalScope.Tree.Label
import LexicalScope.Tree.Walker
import LexicalScope.Workspace.Operation
