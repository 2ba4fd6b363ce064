import DcfsClient.Exec
import DcfsClient.Memory
import DcfsClient.LinkedStore
import DcfsClient.Capsule
import DcfsClient.Store
import DcfsClient.Middleware
import DcfsClient.StorageBackend
import DcfsClient.RecordCache
import DcfsClient.Filesystem
import DcfsClient.RecordLog
import DcfsClient.History
import DcfsClient.ModifyCases
import DcfsClient.MiddlewareRuns
import DcfsClient.CrashConsistency
import DcfsClient.LinearHistory
import DcfsClient.Placement
import DcfsClient.FileKey
import DcfsClient.CacheReads
import DcfsClient.TransientFailures
import DcfsClient.CacheWrites
import DcfsClient.FsInvariant
import DcfsClient.CallbackCases
import DcfsClient.MountRuns
import DcfsClient.CachedInodes
import DcfsClient.ClosedFiles
import DcfsClient.HandleCounts
import DcfsClient.AppendSession
import DcfsClient.StoredBlocks
import DcfsClient.RoundTrip
import DcfsClient.Commitment
import DcfsClient.IndexKeys
import DcfsClient.NewFiles
import DcfsClient.FdTable
import DcfsClient.Lookups
import DcfsClient.DCClient
import DcfsClient.DCClientRuns
import DcfsClient.Completions
import DcfsClient.GetAnswers
import DcfsClient.BlockmapLimit
import DcfsClient.CacheContents
import DcfsClient.DirectoryLoops
import DcfsClient.FileContents
import DcfsClient.FailedWrites
import DcfsClient.BlockmapEntries
import DcfsClient.FlushRuns
import DcfsClient.SignedRequests
import DcfsClient.BlockUnit
import DcfsClient.CacheRuns
import DcfsClient.CStrings
import DcfsClient.DCServerSim
import DcfsClient.ServerList
import DcfsClient.ServerConfig
import DcfsClient.SnapshotReads
import DcfsClient.PlainFs
import DcfsClient.FileViews
import DcfsClient.MountRefinement
import DcfsClient.Listing
import DcfsClient.Channel
import DcfsClient.Cluster
import DcfsClient.Transport
import DcfsClient.Quorum
import DcfsClient.ListenServer
import DcfsClient.NetStore
import DcfsClient.PutProgress
import DcfsClient.GetProgress
import DcfsClient.Cbc
import DcfsClient.Crypto
import DcfsClient.CriticalSection
import DcfsClient.InodeTable
