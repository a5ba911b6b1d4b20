import ZkmProver.Machine
import ZkmProver.Keyed
import ZkmProver.Forest
import ZkmProver.Disk
import ZkmProver.Tasks
import ZkmProver.Stage
import ZkmProver.Scheduler
import ZkmProver.PlanProofs
import ZkmProver.Moves
import ZkmProver.StepMoves
import ZkmProver.Leases
import ZkmProver.Graph
import ZkmProver.Credits
import ZkmProver.InFlight
import ZkmProver.Dependencies
import ZkmProver.Phases
import ZkmProver.Rows
import ZkmProver.Success
import ZkmProver.Order
import ZkmProver.Worker
import ZkmProver.Progress
import ZkmProver.ErrorStatus
import ZkmProver.Client
import ZkmProver.ClientSteps
import ZkmProver.NodeLeases
import ZkmProver.ProverNum
import ZkmProver.Returns
import ZkmProver.Chan
import ZkmProver.Startup
import ZkmProver.Target
import ZkmProver.Panics
import ZkmProver.Recorded
import ZkmProver.Owners
import ZkmProver.Intake
import ZkmProver.Pipeline
import ZkmProver.Rename
import ZkmProver.Splitter
import ZkmProver.SplitMoves
import ZkmProver.Numbering
import ZkmProver.SegmentFiles
import ZkmProver.Arrival
import ZkmProver.Outcomes
import ZkmProver.AfterError
import ZkmProver.ProveList
import ZkmProver.Retries
import ZkmProver.PlanShape
import ZkmProver.GetStatus
import ZkmProver.StatusFiles
import ZkmProver.Answers
import ZkmProver.Formats
import ZkmProver.Supplies
import ZkmProver.Signed
import ZkmProver.LocalFile
import ZkmProver.ShardSize
import ZkmProver.GiveBack
import ZkmProver.DeferredFiles
import ZkmProver.Durations
import ZkmProver.ElfCache
import ZkmProver.Hang
import ZkmProver.Service
import ZkmProver.ServiceRuns
import ZkmProver.NodeCache
import ZkmProver.PlainSplit
import ZkmProver.Cluster
import ZkmProver.Ending
