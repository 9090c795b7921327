import Cohort.Sum
import Cohort.Table
import Cohort.Tally
import Cohort.Tally.Share
import Cohort.Arena
import Cohort.Name
import Cohort.Fault
import Cohort.Weight
import Cohort.Capacity
import Cohort.Group
import Cohort.AccessGraph
import Cohort.SharingGraph
import Cohort.Places
import Cohort.Projection
import Cohort.Queue
import Cohort.Window
import Cohort.Conflicts
import Cohort.Conflicts.ByNode
import Cohort.Duration
import Cohort.Counters
import Cohort.Tracker
import Cohort.Random.Source
import Cohort.Random.ChaCha
import Cohort.Random.Draw
import Cohort.Labelling
import Cohort.Modularity
import Cohort.Agreement
import Cohort.Clustering
import Cohort.Document
import Cohort.Settings
import Cohort.Pruner
import Cohort.Service
import Cohort.Workload
import Cohort.Trial
import Cohort.Proofs.Sum
import Cohort.Proofs.Arena
import Cohort.Proofs.AccessGraph.Sound
import Cohort.Proofs.AccessGraph.Weights
import Cohort.Proofs.AccessGraph.Histories
import Cohort.Proofs.Window
import Cohort.Proofs.AccessGraph.Batches
import Cohort.Proofs.AccessGraph.Words
import Cohort.Proofs.Ledger
import Cohort.Proofs.SlidingWindow
import Cohort.Proofs.SharingGraph
import Cohort.Proofs.Propagation
import Cohort.Proofs.Draw
import Cohort.Proofs.Workload
import Cohort.Proofs.Projection
import Cohort.Proofs.Projection.Walk
import Cohort.Proofs.AccessGraph.Spokes
import Cohort.Proofs.AccessGraph.Register
import Cohort.Proofs.Connected
import Cohort.Proofs.Cliques
import Cohort.Proofs.Groups
import Cohort.Proofs.Components
import Cohort.Proofs.Agreement
import Cohort.Proofs.Usage
import Cohort.Proofs.Recovery
import Cohort.Proofs.Communities
import Cohort.Proofs.AccessGraph.Keys
import Cohort.Proofs.Arena.Courses
import Cohort.Proofs.AccessGraph.Moments
import Cohort.Proofs.Conflicts
import Cohort.Proofs.Reports
import Cohort.Proofs.Tampering
import Cohort.Proofs.Fixpoints
import Cohort.Proofs.GroupShape
import Cohort.Proofs.Stretches
import Cohort.Proofs.DelayLine
import Cohort.Proofs.WarmUp
import Cohort.Proofs.CanonicalGraph
import Cohort.Proofs.Views
import Cohort.Proofs.Separation
import Cohort.Proofs.AccessGraph.Alike
import Cohort.Proofs.AccessGraph.Expiry
import Cohort.Proofs.PeriodCounts
import Cohort.Proofs.ExpiryOrder
import Cohort.Proofs.Conflicts.ByNode
import Cohort.Proofs.StoredConflicts
import Cohort.Proofs.PruneReports
import Cohort.Proofs.Caps
import Cohort.Proofs.Modularity
import Cohort.Proofs.Score
import Cohort.Proofs.CommonPairs
import Cohort.Proofs.Images
import Cohort.Proofs.Renaming
import Cohort.Proofs.Projection.Scaled
import Cohort.Proofs.Scaling
import Cohort.Proofs.Partition
import Cohort.Proofs.Words
import Cohort.Proofs.Projection.Words
import Cohort.Proofs.Headroom
import Cohort.Proofs.Records
import Cohort.Proofs.Handles
import Cohort.Proofs.Streams
import Cohort.Proofs.Requests
import Cohort.Proofs.Timetable
