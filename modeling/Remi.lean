import Remi.Proofs.Client
import Remi.Proofs.Lifetime
import Remi.Proofs.EarlyResponse
import Remi.Proofs.Discipline
import Remi.Server.System
import Remi.Proofs.Overwrite
import Remi.Proofs.Aligned
import Remi.Proofs.Conserved
import Remi.Proofs.Leftover
import Remi.Proofs.Coverage
import Remi.Proofs.FilesetCalls
import Remi.Proofs.Classes
import Remi.Proofs.Uargs
import Remi.Proofs.Confined
import Remi.Proofs.Selection
import Remi.Proofs.Registry
import Remi.Proofs.Walkthrough
import Remi.Proofs.UserCalls
import Remi.Proofs.Paths
import Remi.Proofs.Removal
import Remi.Proofs.Copy
import Remi.Proofs.Isolated
import Remi.Proofs.ComputeSize
import Remi.Proofs.Mkdirs
import Remi.Proofs.Segments
import Remi.Proofs.LastResponse
import Remi.Proofs.Progress
import Remi.Proofs.AsAlone
import Remi.Proofs.Tidy
import Remi.Proofs.AmongOthers
import Remi.Proofs.Handles
import Remi.Proofs.Deployment
import Remi.Proofs.Durable
