import DfsFuzz.Checker.Canonical
import DfsFuzz.Checker.HistoryVerdict
import DfsFuzz.Checker.TreeSubset
import DfsFuzz.Choice.Law
import DfsFuzz.Dag.Balance
import DfsFuzz.Dag.CallPath
import DfsFuzz.Dag.InodeRel
import DfsFuzz.Dag.Order
import DfsFuzz.Executor.FailureSync
import DfsFuzz.Executor.Gate
import DfsFuzz.Executor.Startup
import DfsFuzz.Failure.EdgeCombs
import DfsFuzz.Failure.Random
import DfsFuzz.Feedback.CorpusCover
import DfsFuzz.Feedback.CorpusDb
import DfsFuzz.Feedback.ExchangeSafe
import DfsFuzz.Feedback.CorpusIndex
import DfsFuzz.Generate.PatternShared
import DfsFuzz.Generate.PendingInserts
import DfsFuzz.Generate.StashSound
import DfsFuzz.Hmdfs.ReaddirComplete
import DfsFuzz.Hmdfs.Writecount
import DfsFuzz.Minimize.AnchorsLost
import DfsFuzz.Mutation.Barrier
import DfsFuzz.Mutation.BufferRuns
import DfsFuzz.Mutation.FailOrder
import DfsFuzz.Mutation.GroupPathKept
import DfsFuzz.Mutation.OrderSwap
import DfsFuzz.Mutation.Reservoir
import DfsFuzz.Mutation.StashRuns
import DfsFuzz.Mutation.StashWindow
import DfsFuzz.Mutation.WriteBuffers
import DfsFuzz.Output.Bounds
import DfsFuzz.Output.Damage
import DfsFuzz.Output.ServerCover
import DfsFuzz.Output.TraceRounds
import DfsFuzz.Symsc.Branches
import DfsFuzz.Symsc.Complete
import DfsFuzz.Symsc.ContentRuns
import DfsFuzz.Symsc.Decodes
import DfsFuzz.Symsc.DescriptorLaw
import DfsFuzz.Symsc.FaultVerdict
import DfsFuzz.Symsc.ListingCheck
import DfsFuzz.Symsc.NetState
import DfsFuzz.Symsc.OpenFlags
import DfsFuzz.Symsc.Rename
import DfsFuzz.Tree.Index
import DfsFuzz.Tree.OwnerReplay
import DfsFuzz.Tree.RenameAtomic
import DfsFuzz.Tree.SyncOwner
