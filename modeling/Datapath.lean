import Datapath.Main
import Datapath.Proofs.Arguments
import Datapath.Proofs.Atomicity
import Datapath.Proofs.BitVector
import Datapath.Proofs.Closure
import Datapath.Proofs.Completeness
import Datapath.Proofs.Conflicts
import Datapath.Proofs.Confluence
import Datapath.Proofs.Constants
import Datapath.Proofs.DeclaredWidths
import Datapath.Proofs.Diagnostics
import Datapath.Proofs.FirstMismatch
import Datapath.Proofs.Fixpoint
import Datapath.Proofs.KeyTexts
import Datapath.Proofs.Limits
import Datapath.Proofs.Lookups
import Datapath.Proofs.NormalForm
import Datapath.Proofs.Overflow
import Datapath.Proofs.Recovery
import Datapath.Proofs.Retrieval
import Datapath.Proofs.SameText
import Datapath.Proofs.Sessions
import Datapath.Proofs.Termination
