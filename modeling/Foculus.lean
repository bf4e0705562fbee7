import Foculus.Data.Bytes
import Foculus.Data.Outcome
import Foculus.Data.Action
import Foculus.Data.Reach
import Foculus.Data.Interpolation
import Foculus.Data.FileTree
import Foculus.Data.Confinement
import Foculus.Crates.Nebu
import Foculus.Erasure.Coding
import Foculus.Erasure.Indices
import Foculus.Erasure.Lagrange
import Foculus.Erasure.RoundTrip
import Foculus.Crates.Hemera
import Foculus.Store.Chunk
import Foculus.Store.Das
import Foculus.Store.Nmt
import Foculus.Store.Registry
import Foculus.Data.JoinSchedule
import Foculus.Store.Convergence
import Foculus.Store.EntryHash
import Foculus.Data.Saturating
import Foculus.Store.ChunkStore
import Foculus.VDisk.Manager
import Foculus.VDisk.Recovery
import Foculus.VDisk.Calls
import Foculus.Sync.Node
import Foculus.Sync.Files
import Foculus.Sync.Supersede
import Foculus.Sync.Serve
import Foculus.Sync.Collect
import Foculus.Data.Records
import Foculus.Data.Reader
import Foculus.Data.Framing
import Foculus.Crates.Tape
import Foculus.Chain.Signal
import Foculus.Chain.ContentId
import Foculus.Conflict.Index
import Foculus.Conflict.Detection
import Foculus.Crates.Tru
import Foculus.Conflict.Fork
import Foculus.Conflict.Reconcile
import Foculus.Conflict.Convergence
import Foculus.Conflict.Grouping
import Foculus.Conflict.Timing
import Foculus.Crates.Zheng
import Foculus.Step
import Foculus.Settlement.Game
import Foculus.Data.FoldTree
import Foculus.Settlement.Tickets
import Foculus.Settlement.TicketProof
import Foculus.Settlement.FoldTree
import Foculus.Crates.Tok
import Foculus.Crates
import Foculus.Epoch.Beacon
import Foculus.Epoch.BeaconChoice
import Foculus.Settlement.Rewards
import Foculus.Settlement.Conservation
import Foculus.Settlement.MarginalCert
import Foculus.Settlement.SettleEpoch
import Foculus.Epoch.Runner
import Foculus.Epoch.Lifecycle
import Foculus.Epoch.Window
import Foculus.Epoch.Substitutes
import Foculus.Live.Tip
import Foculus.Epoch.Certificate
import Foculus.Epoch.ArrivalOrder
import Foculus.Live.Node
import Foculus.Live.Credits
import Foculus.Live.Balance
import Foculus.Live.LightTip
import Foculus.Live.SignalClaims
import Foculus.Chain.SignalChain
import Foculus.Chain.Frames
import Foculus.Live.Finality
import Foculus.Live.FinalityEvidence
import Foculus.Settlement.CertifiedTicket
import Foculus.Settlement.SampleCount
import Foculus.Settlement.Mint
import Foculus.Data.OrderedForest
import Foculus.Data.ClassListing
import Foculus.Settlement.Partition
import Foculus.Epoch.LiveReceipt
import Foculus.Epoch.Precision
import Foculus.Epoch.Pipelines
import Foculus.Epoch.Sampling
import Foculus.Gossip.Message
import Foculus.Gossip.Wire
import Foculus.Gossip.Radio
import Foculus.Gossip.Conservation
import Foculus.Gossip.Dedupe
import Foculus.Gossip.Mesh
import Foculus.Gossip.Coverage
import Foculus.Data.Checked
import Foculus.Data.Proportional
import Foculus.Settlement.Allocation
import Foculus.Settlement.NeuronShares
import Foculus.Store.Availability
import Foculus.VDisk.Growth
import Foculus.VDisk.Reading
import Foculus.VDisk.Rounds
import Foculus.VDisk.Survival
import Foculus.VDisk.Advance
import Foculus.VDisk.Panics
import Foculus.VDisk.Rollback
import Foculus.VDisk.Frame
import Foculus.VDisk.Durability
import Foculus.Sync.Placement
import Foculus.Store.LiveCount
import Foculus.Sync.Exchange
import Foculus.Live.Certificates
import Foculus.Epoch.CertHash
import Foculus.Settlement.ReceiptHash
import Foculus.Epoch.Delay
import Foculus.Settlement.Accumulators
import Foculus.Settlement.Grinding
import Foculus.Erasure.Totality
import Foculus.Store.MergeOrder
import Foculus.Settlement.Shapley
import Foculus.Settlement.Efficiency
import Foculus.Sync.Persistence
import Foculus.Data.Average
import Foculus.Crates.Number
import Foculus.Settlement.Withholding
import Foculus.Live.Threshold
import Foculus.Chain.Authorship
import Foculus.Data.Truncation
import Foculus.Chain.Truncation
import Foculus.Data.Cursor
import Foculus.Gossip.Slicing
import Foculus.Live.OwnLinks
import Foculus.Data.DiskUsage
import Foculus.Store.Accounting
import Foculus.Store.Idempotence
import Foculus.VDisk.Repetition
import Foculus.Data.Neighborhood
import Foculus.Settlement.Neighborhood
import Foculus.Settlement.Shuffling
import Foculus.Sync.Apportionment
import Foculus.Sync.Requests
import Foculus.Sync.Cluster
import Foculus.Sync.Replication
import Foculus.Sync.Availability
import Foculus.Store.Audit
import Foculus.Sync.Audit
import Foculus.Data.Tombstones
import Foculus.Store.Compaction
import Foculus.Sync.Compaction
