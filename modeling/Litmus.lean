import Litmus.Exploration
import Litmus.Settings
import Litmus.Value.Sha256
import Litmus.Proofs.Memory.Window
import Litmus.Proofs.Outcome.Yields
import Litmus.Proofs.Instruction.Action
import Litmus.Proofs.Instruction.Growth
import Litmus.Proofs.Exploration.Move
import Litmus.Proofs.Paging.Walk
import Litmus.Proofs.Paging.Descent
import Litmus.Proofs.Instruction.CacheOrder
import Litmus.Proofs.Exploration.Alike
import Litmus.Proofs.Exploration.Complete
import Litmus.Proofs.Exploration.Coherence
import Litmus.Proofs.Instruction.Bounded
import Litmus.Proofs.Instruction.Fence
import Litmus.Proofs.Sequential.Machine
import Litmus.Proofs.Thread.Registers
import Litmus.Proofs.Sequential.Turns
import Litmus.Proofs.Sequential.Stages
import Litmus.Proofs.Memory.Snapshot
import Litmus.Proofs.Sequential.Linearization
import Litmus.Proofs.Instruction.Resolving
import Litmus.Proofs.Thread.Origin
import Litmus.Proofs.Exploration.Invalidation
import Litmus.Proofs.Thread.Recall
import Litmus.Proofs.Exploration.WellFormed
import Litmus.Proofs.Exploration.Exclusive
import Litmus.Proofs.Exploration.Relaxed
import Litmus.Proofs.Thread.Justified
import Litmus.Proofs.Exploration.ThinAir
import Litmus.Proofs.Instruction.PreView
import Litmus.Proofs.Exploration.Barriers
import Litmus.Proofs.Exploration.Conservation
import Litmus.Proofs.Sequential.Simulation
import Litmus.Proofs.Thread.Below
import Litmus.Proofs.Instruction.Weaker
import Litmus.Proofs.Exploration.Fortified
import Litmus.Proofs.Exploration.MessagePassing
import Litmus.Proofs.Instruction.Dataflow
import Litmus.Proofs.Exploration.Dependency
import Litmus.Proofs.Exploration.AddressOrder
import Litmus.Proofs.Exploration.WalkTimes
import Litmus.Proofs.Number.Order
import Litmus.Proofs.Exploration.Deadline
import Litmus.Proofs.Sequential.Alone
import Litmus.Proofs.Memory.Later
import Litmus.Proofs.Instruction.LaterWalks
import Litmus.Proofs.Instruction.Followed
import Litmus.Proofs.Instruction.Postponed
import Litmus.Proofs.Exploration.Independent
import Litmus.Proofs.Outcome.Shuffled
import Litmus.Proofs.Instruction.Recached
import Litmus.Proofs.Exploration.Settled
import Litmus.Proofs.Exploration.Accounts
import Litmus.Proofs.Exploration.AnyOrder
import Litmus.Proofs.Exploration.Offers
import Litmus.Proofs.Exploration.Termination
import Litmus.Proofs.Instruction.Raised
import Litmus.Proofs.Outcome.Thrown
import Litmus.Proofs.Outcome.Told
import Litmus.Proofs.Outcome.Routes
import Litmus.Proofs.Outcome.PickFree
import Litmus.Proofs.Value.Record
import Litmus.Proofs.Exploration.Stopping
import Litmus.Proofs.Memory.Renamed
import Litmus.Proofs.Instruction.Renamed
import Litmus.Proofs.Exploration.Renumbered
import Litmus.Proofs.Exploration.Sources
import Litmus.Proofs.Memory.Reads
import Litmus.Proofs.Memory.Narrowed
import Litmus.Proofs.Memory.Bytes
import Litmus.Proofs.Memory.Rebased
import Litmus.Proofs.Exploration.Fetched
import Litmus.Proofs.Text.Injective
import Litmus.Proofs.Paging.Cache
import Litmus.Proofs.Paging.Keyed
import Litmus.Proofs.Exploration.Monotone
import Litmus.Proofs.Instruction.Underway
import Litmus.Proofs.Exploration.Cached
import Litmus.Proofs.Instruction.Paced
import Litmus.Proofs.Exploration.LastWrites
import Litmus.Proofs.Instruction.Covered
import Litmus.Proofs.Exploration.Fifo
import Litmus.Proofs.Value.Canonical
import Litmus.Proofs.Exploration.Digested
import Litmus.Proofs.Exploration.ByDigest
import Litmus.Proofs.Thread.Visible
import Litmus.Proofs.Text.Template
import Litmus.Proofs.Text.Pattern
import Litmus.Proofs.Outcome.Message
