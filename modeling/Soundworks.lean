import Soundworks.Main
import Soundworks.Server
import Soundworks.Queue.Rehearsal
import Soundworks.Proofs.Job.Inputs
import Soundworks.Proofs.Queue.Accounting
import Soundworks.Proofs.Queue.Order
import Soundworks.Proofs.Studio.Overwrite
import Soundworks.Proofs.Studio.Isolation
import Soundworks.Proofs.Tool.Rejection
import Soundworks.Proofs.Plan.Extension
import Soundworks.Proofs.Validation.Components
import Soundworks.Proofs.Filter.Echo
import Soundworks.Proofs.Studio.Destinations
import Soundworks.Proofs.Expansion.Bounds
import Soundworks.Proofs.Expansion.Reproducible
import Soundworks.Proofs.Expansion.Kept
import Soundworks.Proofs.Files.Normal
import Soundworks.Proofs.Files.Supported
import Soundworks.Proofs.Queue.Holding
import Soundworks.Proofs.Studio.Clearing
import Soundworks.Proofs.Filter.Tempo
import Soundworks.Proofs.Plan.Finite
import Soundworks.Proofs.Files.Alternatives
import Soundworks.Proofs.Files.Renaming
import Soundworks.Proofs.Studio.Layered
import Soundworks.Proofs.Studio.Harmonics
import Soundworks.Proofs.Studio.Members
import Soundworks.Proofs.Validation.Declared
import Soundworks.Proofs.CommandLine.ExitCode
import Soundworks.Proofs.Tool.Decoding
import Soundworks.Proofs.Expansion.Period
import Soundworks.Proofs.Decimal.Plain
import Soundworks.Proofs.Files.Extension
