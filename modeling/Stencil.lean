import Stencil.Batch
import Stencil.Json.Writer
import Stencil.Proofs.Accesses
import Stencil.Proofs.AttrBlocks
import Stencil.Proofs.Balance
import Stencil.Proofs.Blame
import Stencil.Proofs.Bracketing
import Stencil.Proofs.Chains
import Stencil.Proofs.Directory
import Stencil.Proofs.Encoding
import Stencil.Proofs.FragmentMirror
import Stencil.Proofs.FreshIdentities
import Stencil.Proofs.Fusion
import Stencil.Proofs.Imports
import Stencil.Proofs.Initialised
import Stencil.Proofs.NormalForm
import Stencil.Proofs.Observation
import Stencil.Proofs.Payload
import Stencil.Proofs.Resolution
import Stencil.Proofs.Strays
import Stencil.Proofs.SwitchHistory
import Stencil.Proofs.Targets
