import Kage.SegmentRuns
import Kage.FailedAppend
import Kage.FailedRollover
import Kage.PartitionRestart
import Kage.SegmentCleaner
import Kage.PartitionPlaces
import Kage.DirectoryNames
import Kage.StoreCreation
import Kage.ConsumerWalk
import Kage.FetchBudgets
import Kage.LogicalOffsets
import Kage.PartitionReads
import Kage.OffsetCrash
import Kage.OffsetConcurrency
import Kage.OffsetForgery
import Kage.RequestAlignment
import Kage.PipelinedRequests
import Kage.FetchConcurrency
import Kage.ProduceMetrics
import Kage.RequestPanics
import Kage.ResponseVersions
import Kage.TruncatedRequests
import Kage.RequestEncodings
import Kage.ResponseDecoders
import Kage.FetchFrames
import Kage.BatchChecksums
import Kage.OffsetHydration
import Kage.ResponseShapes
import Kage.SegmentAtomicity
import Kage.CleanerFailures
import Kage.IndexLookup
import Kage.IndexPositions
import Kage.IndexReload
import Kage.ConfigPrecedence
import Kage.QuotedValues
import Kage.BrokerPrograms
import Kage.ServedAlone
import Kage.AnsweredConnections
import Kage.BrokerLifetimes
import Kage.WorkerPool
import Kage.ListedTopics
import Kage.WholeSweeps
import Kage.ConnectionsInTurn
import Kage.OrderlyShutdown
import Kage.AvailableRecords
