import PythonTypes.Flow.Codec
import PythonTypes.Proofs.Descriptor.Failure
import PythonTypes.Proofs.Descriptor.Merging
import PythonTypes.Proofs.Descriptor.RoundTrip
import PythonTypes.Proofs.Flow.Elements
import PythonTypes.Proofs.Flow.LeastSolution
import PythonTypes.Proofs.Inference.JoinLattice
import PythonTypes.Proofs.Inference.Module
import PythonTypes.Proofs.Inference.Recording
import PythonTypes.Proofs.Inference.Termination
import PythonTypes.Proofs.Inference.Tracking
import PythonTypes.Proofs.Table.Ancestry
import PythonTypes.Proofs.Table.Distribution
import PythonTypes.Proofs.Table.Faithfulness
import PythonTypes.Proofs.Table.Importing
import PythonTypes.Proofs.Table.Release
import PythonTypes.Proofs.Table.Rendering
import PythonTypes.Proofs.Text.RelativeImport
import PythonTypes.Proofs.Tree.Enumeration
import PythonTypes.Proofs.Tree.Scoping
import PythonTypes.Proofs.Types.Ends
import PythonTypes.Text.Json.Writer
import PythonTypes.Tree.Source.Codec
