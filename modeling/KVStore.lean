import KVStore.Lib.Run
import KVStore.Lib.RecentWindow
import KVStore.Lib.TextSearch
import KVStore.Lib.TextReplace
import KVStore.Lib.Json
import KVStore.Lib.Base64
import KVStore.Lib.Journal
import KVStore.Lib.Memo
import KVStore.Lib.Rotation
import KVStore.Lib.OrderStatistics
import KVStore.Lib.Ranking
import KVStore.Lib.JournalProgress
import KVStore.Lib.Rounds
import KVStore.Lib.RemoteCalls
import KVStore.Lib.Options
import KVStore.Types
import KVStore.BlobName
import KVStore.Versions
import KVStore.Blob
import KVStore.Write
import KVStore.Read
import KVStore.Rpc
import KVStore.TokenBuffer
import KVStore.Conversation
import KVStore.StreamingRead
import KVStore.System
import KVStore.Schedule
import KVStore.Refine
import KVStore.Observe
import KVStore.History
import KVStore.Append
import KVStore.Duplicate
import KVStore.Acknowledge
import KVStore.Leak
import KVStore.Sequential
import KVStore.Progress
import KVStore.Chain
import KVStore.Dangling
import KVStore.Retrieval
import KVStore.Prefix
import KVStore.Linearization
import KVStore.BlockIdentity
import KVStore.ReadBack
import KVStore.LookupRead
import KVStore.Longest
import KVStore.StreamOrder
import KVStore.StreamFinish
import KVStore.StreamLifetime
import KVStore.AccountResolver
import KVStore.StoreBinding
import KVStore.ConcurrentResolve
import KVStore.PromptPrefix
import KVStore.WarmStart
import KVStore.LookupGrowth
import KVStore.Client
import KVStore.RemoteWrites
import KVStore.ExpectedHash
import KVStore.VersionMetadata
import KVStore.VersionOrigin
import KVStore.FlushRetry
import KVStore.Validation
import KVStore.ValidationRun
import KVStore.ConfigText
import KVStore.FileConfig
import KVStore.FileConfigJson
import KVStore.ServerMain
import KVStore.ServerStart
import KVStore.AccountConfig
import KVStore.RegionRouting
import KVStore.ConfigScan
import KVStore.NicSelection
import KVStore.NicFailover
import KVStore.OperationStats
import KVStore.ConcurrentRuns
import KVStore.DelayedRequests
import KVStore.LateWrites
