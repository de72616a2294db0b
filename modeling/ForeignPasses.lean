import ForeignPasses.Main
import ForeignPasses.Opaque.Locker
import ForeignPasses.Preserved.Registers
import ForeignPasses.Record.Codec
import ForeignPasses.Session.Run
import ForeignPasses.Proofs.Exec.Ensures
import ForeignPasses.Proofs.Identity.Calls
import ForeignPasses.Proofs.Identity.Discipline
import ForeignPasses.Proofs.Pipeline.Acceptance
import ForeignPasses.Proofs.Pipeline.Elaboration
import ForeignPasses.Proofs.Pipeline.Stopping
import ForeignPasses.Proofs.Pipeline.Vocabulary
import ForeignPasses.Proofs.Pipeline.Names
import ForeignPasses.Proofs.Coherence.Runs
import ForeignPasses.Proofs.Ownership.Sessions
import ForeignPasses.Proofs.Boundary.Refusals
import ForeignPasses.Proofs.Registry.History
import ForeignPasses.Proofs.Manager.Computed
import ForeignPasses.Proofs.Preservation.Reports
import ForeignPasses.Proofs.Preservation.Adapters
import ForeignPasses.Proofs.Coherence.SharedKeys
import ForeignPasses.Proofs.Manager.Evaluation
import ForeignPasses.Proofs.Manager.Memoisation
import ForeignPasses.Proofs.Identity.Nesting
import ForeignPasses.Proofs.Exec.Sayings
import ForeignPasses.Proofs.Pipeline.Resolution
import ForeignPasses.Proofs.Exec.Agreement
import ForeignPasses.Proofs.Pipeline.Loading
import ForeignPasses.Proofs.Demo.Tool
import ForeignPasses.Proofs.Separation.Sessions
import ForeignPasses.Proofs.Pipeline.Contents
import ForeignPasses.Proofs.Manager.Exactness
import ForeignPasses.Proofs.Pipeline.Grouping
import ForeignPasses.Proofs.Manager.Outstanding
import ForeignPasses.Proofs.Manager.Passes
import ForeignPasses.Proofs.Pipeline.Places
import ForeignPasses.Proofs.Manager.SettingUp
import ForeignPasses.Proofs.Unwinding.Replaying
import ForeignPasses.Proofs.Preservation.Storage
import ForeignPasses.Proofs.Ownership.Lockers
import ForeignPasses.Proofs.Pipeline.Defaults
import ForeignPasses.Proofs.Manager.Accessors
import ForeignPasses.Proofs.Pipeline.Progress
