import ProjectDb.TornLog
import ProjectDb.FlushPipeline
import ProjectDb.CrashRecovery
import ProjectDb.InstallCrash
import ProjectDb.CompactionLaunch
import ProjectDb.MergeGroups
import ProjectDb.SSTableReload
import ProjectDb.WriteAhead
import ProjectDb.FlushStream
import ProjectDb.FailedJobs
import ProjectDb.QueueInvariant
import ProjectDb.FullTables
import ProjectDb.KeptStream
import ProjectDb.IndexedRanges
import ProjectDb.FlushTrigger
import ProjectDb.CompactionSize
import ProjectDb.IndexBlocks
import ProjectDb.ConfigLines
import ProjectDb.NewFiles
import ProjectDb.Durability
import ProjectDb.SeldomWritten
import ProjectDb.StoreShape
import ProjectDb.Progress
import ProjectDb.Admission
import ProjectDb.FilePaths
import ProjectDb.LogRuns
import ProjectDb.FlushIndex
import ProjectDb.Provenance
import ProjectDb.BesideCalls
import ProjectDb.Foundation.Reduction
import ProjectDb.JobWrites
import ProjectDb.OpeningSteps
import ProjectDb.UnfinishedJobs
