import AdaptiveMesh.Main
import AdaptiveMesh.Proofs.Published
import AdaptiveMesh.Proofs.Shares
import AdaptiveMesh.Proofs.Slots
import AdaptiveMesh.Proofs.Coarsening
import AdaptiveMesh.Proofs.Lockstep
import AdaptiveMesh.Proofs.Acceptance
import AdaptiveMesh.Proofs.Steps
import AdaptiveMesh.Proofs.LevelJumps
import AdaptiveMesh.Proofs.Numbering
import AdaptiveMesh.Proofs.Reloading
import AdaptiveMesh.Proofs.Refusals
import AdaptiveMesh.Proofs.Boundaries
import AdaptiveMesh.Proofs.ZOrder
import AdaptiveMesh.Proofs.Staging
import AdaptiveMesh.Proofs.Partition
import AdaptiveMesh.Proofs.Tables
import AdaptiveMesh.Proofs.Writing
import AdaptiveMesh.Proofs.LeastRefinement
import AdaptiveMesh.Proofs.ClosedFlags
import AdaptiveMesh.Proofs.Renumbering
import AdaptiveMesh.Proofs.Families
import AdaptiveMesh.Proofs.Merging
import AdaptiveMesh.Proofs.Passes
import AdaptiveMesh.Proofs.Gathering
import AdaptiveMesh.Proofs.Undoing
import AdaptiveMesh.Proofs.Lookup
import AdaptiveMesh.Proofs.Inheritance
import AdaptiveMesh.Proofs.Averaging
import AdaptiveMesh.Proofs.EvenShares
import AdaptiveMesh.Proofs.Contact
import AdaptiveMesh.Proofs.Levels
import AdaptiveMesh.Proofs.OnePass
import AdaptiveMesh.Proofs.Recognition
