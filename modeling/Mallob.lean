import Mallob.VolumeCalculator
import Mallob.Bisection
import Mallob.VolumeSweep
import Mallob.VolumeSearch
import Mallob.VolumeShares
import Mallob.VolumeResult
import Mallob.VolumeAssignment
import Mallob.LeftoverOrder
import Mallob.KeptSlots
import Mallob.VolumeIterations
import Mallob.BalancerTree
import Mallob.Network
import Mallob.EventDrivenBalancer
import Mallob.BalancerSteps
import Mallob.EventLine
import Mallob.EventDelivery
import Mallob.BalancerCalls
import Mallob.Reregistration
import Mallob.CollectiveAssignment
import Mallob.RequestConservation
import Mallob.Walks
import Mallob.OutgoingEdges
import Mallob.ReductionTrees
import Mallob.AdjustablePermutation
import Mallob.ExpanderGraph
import Mallob.InactiveJobNodes
import Mallob.ChildInterface
import Mallob.LocalScheduler
import Mallob.ChildSessions
import Mallob.SchedulerSteps
import Mallob.SchedulerLifeCycle
import Mallob.ReturnedNodes
import Mallob.Renumbering
import Mallob.VariableTranslator
import Mallob.SignificantBits
import Mallob.MessageQueue
import Mallob.BatchedMessages
import Mallob.Checksum
import Mallob.Handshake
import Mallob.HordeProcess
import Mallob.ClauseHandshake
import Mallob.Cnf
import Mallob.SolverThread
import Mallob.RevisionEncoding
import Mallob.SolverResults
import Mallob.BucketLabel
import Mallob.ClauseBuffer
import Mallob.BucketEncoding
import Mallob.SortedMerge
import Mallob.BufferMerger
import Mallob.MergedVector
import Mallob.MergedClauses
import Mallob.RingBuffer
import Mallob.ChunkManager
import Mallob.ClauseSlot
import Mallob.AdaptiveClauseDatabase
import Mallob.SlotContents
import Mallob.SlotOperations
import Mallob.DatabaseInsertion
import Mallob.ExportedBuffer
import Mallob.StoredClauses
import Mallob.BulkInsertion
import Mallob.OfferedChunks
import Mallob.BufferRoundTrip
import Mallob.BulkAccounting
import Mallob.DatabaseRuns
import Mallob.MergedBuffers
import Mallob.ClauseExport
import Mallob.RevisionWriter
import Mallob.RevisionHandshake
import Mallob.JobComm
import Mallob.RanklistAggregation
import Mallob.ByteLayout
import Mallob.AppConfiguration
import Mallob.JobDescription
import Mallob.PayloadSeparation
import Mallob.RevisionPayloads
import Mallob.SatReader
import Mallob.RawFormula
import Mallob.CnfText
import Mallob.JsonInterface
import Mallob.JobIdentities
import Mallob.JobDependencies
import Mallob.VolumeFairness
import Mallob.TreeConstruction
import Mallob.CycleWalk
import Mallob.FeistelNetwork
import Mallob.UndirectedGraph
import Mallob.IndexTree
import Mallob.SubtreeRouting
import Mallob.GroupedJoin
import Mallob.NodeMerging
import Mallob.SessionRanks
import Mallob.SessionMoves
import Mallob.RejectingNodes
import Mallob.WaitingNodes
import Mallob.MergedLengths
import Mallob.ExportLimits
import Mallob.Reentrant
import Mallob.WorkerJob
import Mallob.JobDatabase
import Mallob.WorkerHandlers
import Mallob.WorkerOccupancy
import Mallob.OccupancyChanges
import Mallob.OccupancyRuns
import Mallob.BloomFilter
import Mallob.ClauseFilter
import Mallob.RawInput
import Mallob.MissingRanges
import Mallob.ClauseHistory
import Mallob.HistorySubscriptions
import Mallob.DeferredClauses
import Mallob.GatheredClauses
import Mallob.ClauseRecords
import Mallob.PositionedReader
import Mallob.TruncatedBuffers
import Mallob.BinFilling
import Mallob.BulkContents
import Mallob.UnneededChunks
import Mallob.SpareChunks
import Mallob.SingleEvaluation
import Mallob.GrowingVector
import Mallob.ClauseHistogram
import Mallob.DeletedClauses
import Mallob.RelocatedSlots
import Mallob.SlotIndex
import Mallob.ConfigurationRoundTrip
import Mallob.ArrivalTimes
import Mallob.DormantChildren
import Mallob.IncomingJobs
import Mallob.Portfolio
import Mallob.ClauseShuffler
import Mallob.SendQueue
import Mallob.BatchedTransfers
import Mallob.TransferLines
import Mallob.TransferRuns
import Mallob.RangeChains
import Mallob.RingbufThreads
import Mallob.RingbufLayout
import Mallob.RingbufSteps
import Mallob.RingbufProducers
import Mallob.RingbufConsumer
import Mallob.RingbufRuns
import Mallob.RingbufCalls
import Mallob.AssignmentNetwork
import Mallob.RequestAccounting
import Mallob.Descendants
import Mallob.IdleCounts
import Mallob.HeldClauses
import Mallob.ClauseNetwork
import Mallob.ClauseConservation
import Mallob.ClauseSpread
import Mallob.ClauseAssertions
import Mallob.Channels
import Mallob.ClauseBroadcasts
import Mallob.BroadcastOrder
import Mallob.HistoryContents
import Mallob.ServedBatches
import Mallob.HistoryNetwork
import Mallob.ServedSubscriptions
import Mallob.ClientJobs
import Mallob.JobLifeCycle
import Mallob.Codecs
import Mallob.JobTransfer
import Mallob.AssignmentUpdates
