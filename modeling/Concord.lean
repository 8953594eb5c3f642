import Concord.Main
import Concord.Proofs.Backend.Announcements
import Concord.Proofs.Backend.Batches
import Concord.Proofs.Backend.CarriedFlags
import Concord.Proofs.Backend.FlagNews
import Concord.Proofs.Backend.Flags
import Concord.Proofs.Backend.OperationalPushes
import Concord.Proofs.Backend.Projection
import Concord.Proofs.Backend.Streams
import Concord.Proofs.Command.Differences
import Concord.Proofs.Document.StateFiles
import Concord.Proofs.Document.StateText
import Concord.Proofs.Document.WrittenFiles
import Concord.Proofs.Encoding
import Concord.Proofs.HashTree.CanonicalForm
import Concord.Proofs.HashTree.Changes
import Concord.Proofs.HashTree.Comparison
import Concord.Proofs.HashTree.ComparisonKeys
import Concord.Proofs.HashTree.ComparisonOrder
import Concord.Proofs.HashTree.Contents
import Concord.Proofs.HashTree.Difference
import Concord.Proofs.HashTree.DigestedBytes
import Concord.Proofs.HashTree.Drift
import Concord.Proofs.HashTree.InPlace
import Concord.Proofs.HashTree.Invariants
import Concord.Proofs.HashTree.Keying
import Concord.Proofs.HashTree.LiveMap
import Concord.Proofs.HashTree.Outline
import Concord.Proofs.HashTree.Patching
import Concord.Proofs.HashTree.Path
import Concord.Proofs.HashTree.Pruning
import Concord.Proofs.HashTree.RecordShapes
import Concord.Proofs.HashTree.Records
import Concord.Proofs.HashTree.Representation
import Concord.Proofs.HashTree.StoredKeys
import Concord.Proofs.HashTree.Traversal
import Concord.Proofs.HashTree.TreeText
import Concord.Proofs.HashTree.Unflagged
import Concord.Proofs.HashTree.Walk
import Concord.Proofs.Json.Decoding
import Concord.Proofs.Json.Spelling
import Concord.Proofs.Json.Tokens
import Concord.Proofs.Reconcile.Alignment
import Concord.Proofs.Reconcile.Appearances
import Concord.Proofs.Reconcile.Concurrency
import Concord.Proofs.Reconcile.ConvergedStatuses
import Concord.Proofs.Reconcile.Delays
import Concord.Proofs.Reconcile.Exchanges
import Concord.Proofs.Reconcile.FirstAppearances
import Concord.Proofs.Reconcile.GivingUp
import Concord.Proofs.Reconcile.Histories
import Concord.Proofs.Reconcile.Independence
import Concord.Proofs.Reconcile.Interleavings
import Concord.Proofs.Reconcile.Ladder
import Concord.Proofs.Reconcile.Ledgers
import Concord.Proofs.Reconcile.LoneRoot
import Concord.Proofs.Reconcile.Loops
import Concord.Proofs.Reconcile.Moments
import Concord.Proofs.Reconcile.OneRung
import Concord.Proofs.Reconcile.Overlap
import Concord.Proofs.Reconcile.OwnershipFlips
import Concord.Proofs.Reconcile.PushedBatches
import Concord.Proofs.Reconcile.Questions
import Concord.Proofs.Reconcile.RecordsLeft
import Concord.Proofs.Reconcile.RefusedReports
import Concord.Proofs.Reconcile.Rounds
import Concord.Proofs.Reconcile.Rungs
import Concord.Proofs.Reconcile.Sights
import Concord.Proofs.Reconcile.Sorting
import Concord.Proofs.Reconcile.StandingDelta
import Concord.Proofs.Reconcile.StatusProtocol
import Concord.Proofs.Reconcile.Statuses
import Concord.Proofs.Reconcile.StillDesired
import Concord.Proofs.Reconcile.Tasks
import Concord.Proofs.Reconcile.Traces
import Concord.Proofs.Reconcile.TrackerCalls
import Concord.Proofs.Reconcile.TrackerLadder
import Concord.Proofs.Reconcile.Undisturbed
import Concord.Proofs.Time.Backoff
import Concord.Proofs.Universe.ComingToRest
import Concord.Proofs.Universe.Convergence
import Concord.Proofs.Universe.Courses
import Concord.Proofs.Universe.Deeds
import Concord.Proofs.Universe.Deployments
import Concord.Proofs.Universe.FlagsFollow
import Concord.Proofs.Universe.Observation
import Concord.Proofs.Universe.Pools
import Concord.Proofs.Universe.Rebuilding
import Concord.Proofs.Universe.RetrySchedule
import Concord.Proofs.Universe.ServedRoots
import Concord.Proofs.Universe.Serving
import Concord.Proofs.Universe.Slots
import Concord.Proofs.Universe.SoleWorker
import Concord.Proofs.Universe.Staying
import Concord.Proofs.Universe.ToldFlags
import Concord.Proofs.Universe.Turns
import Concord.Scenario.Listening
import Concord.Scenario.Scene
import Concord.Scenario.ScriptedPool
import Concord.Scenario.ScriptedView
