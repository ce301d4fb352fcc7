import EtcFS.Correctness.SharedWrites
import EtcFS.Correctness.LastWrite
import EtcFS.Correctness.FileBlocks
import EtcFS.Correctness.StalePlan
import EtcFS.Correctness.ReportedSize
import EtcFS.Correctness.MissedWrite
import EtcFS.Correctness.RebuiltArenas
import EtcFS.Correctness.WedgedNode
import EtcFS.Correctness.OwedFence
import EtcFS.Fencing.Watchdog
import EtcFS.Correctness.FenceOnce
import EtcFS.Correctness.ArenaFence
import EtcFS.Correctness.Departure
import EtcFS.Correctness.SetID
import EtcFS.Correctness.Discard
import EtcFS.Correctness.StuckFlush
import EtcFS.Correctness.FsyncPromise
import EtcFS.Correctness.TokenMatch
import EtcFS.Correctness.ReportKeys
import EtcFS.Correctness.LockExclusion
import EtcFS.Correctness.StrandedKey
import EtcFS.Correctness.StalePages
import EtcFS.Correctness.AttrEvents
import EtcFS.Correctness.RenamedName
import EtcFS.Correctness.DirectoryCycles
import EtcFS.Correctness.EntryParents
import EtcFS.Correctness.RemovedDirectories
import EtcFS.Correctness.KeptRecords
import EtcFS.Correctness.StrayKeys
import EtcFS.Correctness.OpenDescriptors
import EtcFS.Correctness.OrphanedRecords
import EtcFS.Correctness.AbsentNames
import EtcFS.Correctness.WatchDelivery
import EtcFS.Correctness.PunchedRange
import EtcFS.Correctness.RegrownFile
import EtcFS.Correctness.CachedExtents
import EtcFS.Correctness.SplitBlocks
import EtcFS.Correctness.StoredFormats
import EtcFS.Correctness.NodeScans
import EtcFS.Correctness.LostSnapshot
import EtcFS.Correctness.TxnShape
import EtcFS.Correctness.IssuedNumbers
import EtcFS.Correctness.ExtentStamps
import EtcFS.Correctness.GrantedRuns
import EtcFS.Correctness.MarkedBlocks
import EtcFS.Correctness.SparseSeek
import EtcFS.Correctness.UnreadExtents
import EtcFS.Correctness.Collisions
import EtcFS.Correctness.ReaddirScans
import EtcFS.Correctness.MergedTimes
import EtcFS.Correctness.StatusClock
import EtcFS.Correctness.FlushedRuns
import EtcFS.Correctness.ReclaimedOnce
import EtcFS.Correctness.ReaddirReply
import EtcFS.Correctness.BufferedTotals
import EtcFS.Correctness.LandedFlush
import EtcFS.Correctness.SweptBuffers
import EtcFS.Correctness.ParentChain
import EtcFS.Ipc.FlushModels
import EtcFS.Quota.Usage
