import Xref.Main
import Xref.Proofs.Call.Guesses
import Xref.Proofs.Call.Parents
import Xref.Proofs.Catalog.Exact
import Xref.Proofs.Cst.Overlooked
import Xref.Proofs.Cst.WrittenImports
import Xref.Proofs.Digest.Arguments
import Xref.Proofs.Digest.CallOrder
import Xref.Proofs.Files.RelativeModules
import Xref.Proofs.Hierarchy.Cycles
import Xref.Proofs.Hierarchy.Duality
import Xref.Proofs.Index.Reuse
import Xref.Proofs.Index.SavedGraph
import Xref.Proofs.Isolation.Malformed
import Xref.Proofs.Meaning.StarImports
import Xref.Proofs.TypeHint.Layout
import Xref.Proofs.TypeHint.Written
import Xref.Proofs.Unannotated.Index
