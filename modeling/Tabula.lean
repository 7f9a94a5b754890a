import Tabula.Display.Render
import Tabula.Proofs.Coherence
import Tabula.Proofs.Congruence
import Tabula.Proofs.Hashing
import Tabula.Proofs.Identity
import Tabula.Proofs.Lifecycle
import Tabula.Proofs.Numbering
import Tabula.Proofs.Numeric
import Tabula.Proofs.Rebuilding
import Tabula.Proofs.Recovery
import Tabula.Proofs.Refinement
import Tabula.Proofs.RoundTrip
import Tabula.Storage
import Tabula.Proofs.Failures
import Tabula.Proofs.Reference
import Tabula.Proofs.Documents
import Tabula.Proofs.Files
import Tabula.Proofs.Inference
import Tabula.Proofs.Saving
import Tabula.Proofs.Paths
import Tabula.Proofs.Footprint
import Tabula.Proofs.Storing
import Tabula.Proofs.Ranks
import Tabula.Proofs.Reports
import Tabula.Proofs.Codes
import Tabula.Proofs.Acceptance
import Tabula.Proofs.Fallback
import Tabula.Proofs.Consecutive
import Tabula.Proofs.Repeats
import Tabula.Proofs.Commutation
import Tabula.Proofs.Reading
import Tabula.Proofs.Choosing
import Tabula.Proofs.Replacing
import Tabula.Proofs.Renaming
import Tabula.Proofs.Gathering
import Tabula.Proofs.Assembling
import Tabula.Proofs.Normalizing
import Tabula.Proofs.Causes
import Tabula.Proofs.ValueText
import Tabula.Proofs.Settings
import Tabula.Proofs.Lossless
