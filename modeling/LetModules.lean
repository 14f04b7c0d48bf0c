import LetModules.Main
import LetModules.Proofs.Binding.Agreement
import LetModules.Proofs.Binding.Listing
import LetModules.Proofs.Existence.Depth
import LetModules.Proofs.Existence.Memo
import LetModules.Proofs.Flawless
import LetModules.Proofs.Graph.Invalidation
import LetModules.Proofs.Outline.Exact
import LetModules.Proofs.Located
import LetModules.Proofs.Outline.Recovery
import LetModules.Proofs.Reexport.Report
import LetModules.Proofs.Token.Lossless
import LetModules.Proofs.Tree.Ambiguity
import LetModules.Proofs.Tree.Atomicity
import LetModules.Proofs.Tree.Representation
import LetModules.Proofs.Twin.Listing
import LetModules.Proofs.Twin.Privacy
import LetModules.Proofs.Twin.Production
import LetModules.Proofs.Twin.Unrelated
import LetModules.Proofs.Verdict
import LetModules.Proofs.Loading.Exact
import LetModules.Proofs.Graph.Answers
import LetModules.Proofs.Graph.Cycles
import LetModules.Proofs.Scope.ClosedForm
import LetModules.Proofs.Visibility.Place
import LetModules.Proofs.Exports.Surface
import LetModules.Proofs.Binding.Balance
import LetModules.Proofs.Scope.Candidates
import LetModules.Proofs.Exports.Available
import LetModules.Proofs.Pairing.Mirror
import LetModules.Proofs.Outline.Delimited
import LetModules.Proofs.Addressed
import LetModules.Proofs.Outline.Names
import LetModules.Proofs.Loading.Suffix
