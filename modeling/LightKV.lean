import LightKV.SnapshotMerge
import LightKV.MappedLog
import LightKV.ManifestCuts
import LightKV.Quiescence
import LightKV.FlushRetries
import LightKV.LevelOrder
import LightKV.FailedOpen
import LightKV.RangeDeletes
import LightKV.Transactions
import LightKV.GetInterleavings
import LightKV.KeyIsolation
import LightKV.Coverage
import LightKV.GroupCommitLive
import LightKV.PowerLoss
import LightKV.Majorities
import LightKV.SnapshotFiles
import LightKV.MonotoneIndices
import LightKV.ProposeSync
import LightKV.SnapshotPrefix
import LightKV.Backup
import LightKV.LeaderLog
import LightKV.SnapshotTransfer
import LightKV.Backlog
import LightKV.ReplicaLink
import LightKV.StateImage
import LightKV.FailedInstall
import LightKV.ExpiryRuns
import LightKV.Increments
import LightKV.SetCommands
import LightKV.HyperLogLog
