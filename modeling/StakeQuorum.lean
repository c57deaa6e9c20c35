import StakeQuorum.Bytes.LittleEndian
import StakeQuorum.Codec.Stream
import StakeQuorum.Consensus.Course
import StakeQuorum.Consensus.Shared
import StakeQuorum.Main
import StakeQuorum.Signature.Ed25519
import StakeQuorum.Stake.Notification
import StakeQuorum.Validator.Following
import StakeQuorum.WorkerPool.History
import StakeQuorum.WorkerPool.Jobs
import StakeQuorum.WorkerPool.Reservations
import StakeQuorum.Proofs.Base58.RoundTrip
import StakeQuorum.Proofs.Codec.Records
import StakeQuorum.Proofs.Codec.Sizes
import StakeQuorum.Proofs.Codec.Streams
import StakeQuorum.Proofs.Transaction.Signing
import StakeQuorum.Proofs.Store.Contents
import StakeQuorum.Proofs.Account.Changes
import StakeQuorum.Proofs.Account.Lamports
import StakeQuorum.Proofs.Account.Authority
import StakeQuorum.Proofs.Stake.Conservation
import StakeQuorum.Proofs.Stake.Backing
import StakeQuorum.Proofs.Stake.Forgery
import StakeQuorum.Proofs.Consensus.Closing
import StakeQuorum.Proofs.Consensus.Admission
import StakeQuorum.Proofs.Stake.Registries
import StakeQuorum.Proofs.Stake.Life
import StakeQuorum.Proofs.Account.Acceptance
import StakeQuorum.Proofs.Account.Exactness
import StakeQuorum.Proofs.Account.Deposits
import StakeQuorum.Proofs.Stake.Instructions
import StakeQuorum.Proofs.Stake.Portions
import StakeQuorum.Proofs.Stake.Interruption
import StakeQuorum.Proofs.Stake.Readability
import StakeQuorum.Proofs.Stake.Rent
import StakeQuorum.Proofs.Stake.Listeners
import StakeQuorum.Proofs.Stake.Announcements
import StakeQuorum.Proofs.Settings.Lines
import StakeQuorum.Proofs.Settings.Contents
import StakeQuorum.Proofs.Settings.RoundTrip
import StakeQuorum.Proofs.Settings.Values
import StakeQuorum.Proofs.Node.Hosts
import StakeQuorum.Proofs.Node.Saving
import StakeQuorum.Proofs.WorkerPool.Operations
import StakeQuorum.Proofs.WorkerPool.Histories
import StakeQuorum.Proofs.Consensus.Calls
import StakeQuorum.Proofs.Consensus.Snapshots
import StakeQuorum.Proofs.Validator.Convergence
import StakeQuorum.Proofs.WorkerPool.Reserving
import StakeQuorum.Proofs.Stake.Lookup
import StakeQuorum.Proofs.Stake.Totals
import StakeQuorum.Proofs.Stake.Continuity
import StakeQuorum.Proofs.Address.Grammar
import StakeQuorum.Proofs.Hex.RoundTrip
import StakeQuorum.Proofs.Store.Sessions
import StakeQuorum.Proofs.Node.Layers
import StakeQuorum.Proofs.Consensus.Deadlines
import StakeQuorum.Proofs.Consensus.Freshness
import StakeQuorum.Proofs.Base58.Lengths
import StakeQuorum.Proofs.Stake.Identities
