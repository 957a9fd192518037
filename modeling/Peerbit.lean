import Peerbit.SharedLog.LostRebalance
import Peerbit.SharedLog.CoverSetCovers
import Peerbit.Log.JoinConvergence
import Peerbit.Documents.Converge
import Peerbit.Log.OperationRule
import Peerbit.Log.PutStep
import Peerbit.Documents.Changes
import Peerbit.Documents.Mirror
import Peerbit.Lib.Machines
import Peerbit.SharedLog.Prune
import Peerbit.SharedLog.PruneSafety
import Peerbit.SharedLog.RatelessStream
import Peerbit.Lib.LevelOrder
import Peerbit.TrustedNetwork.IdentityGraph
import Peerbit.TrustedNetwork.TrustSearch
import Peerbit.Documents.Iterate
import Peerbit.Documents.IterateMerge
import Peerbit.Documents.IterateRuns
import Peerbit.Transport.DataMessages
import Peerbit.Transport.TamperedCopies
import Peerbit.Log.HybridClock
import Peerbit.Log.ClockRuns
import Peerbit.Lib.Fifos
import Peerbit.Transport.PushableLanes
import Peerbit.Indexer.Query
import Peerbit.Lib.Kleene
import Peerbit.Indexer.HashmapIndex
import Peerbit.Indexer.WhereClause
import Peerbit.Indexer.Connectives
import Peerbit.Lib.StableSort
import Peerbit.Log.ToArray
import Peerbit.DString.StringIndex
import Peerbit.Indexer.RowSchema
import Peerbit.Indexer.RowInsert
import Peerbit.Indexer.RowResolve
import Peerbit.Indexer.RowRoundTrip
import Peerbit.Indexer.RowColumns
import Peerbit.Indexer.RowFields
import Peerbit.Indexer.RowElements
import Peerbit.Indexer.RowChildren
import Peerbit.Indexer.RowBounds
import Peerbit.Indexer.RowObjects
import Peerbit.Indexer.RowInserts
import Peerbit.Indexer.RowSound
import Peerbit.Indexer.RowKept
import Peerbit.Lib.KeyedMaxima
import Peerbit.SharedLog.DebounceChanges
import Peerbit.PubSub.DirectSub
import Peerbit.PubSub.TableAgreement
import Peerbit.PubSub.LatestSubscription
import Peerbit.Transport.DeliveryPromise
import Peerbit.Lib.PrefixCodes
import Peerbit.Transport.MessageSignatures
import Peerbit.SharedLog.MergeRanges
import Peerbit.Indexer.IndexIterators
import Peerbit.Documents.RemotePaging
import Peerbit.SharedLog.ClosestAround
import Peerbit.SharedLog.Samples
import Peerbit.Lib.Heaps
import Peerbit.RatelessIblt.CodedSymbols
import Peerbit.RatelessIblt.Encoder
import Peerbit.RatelessIblt.Decoder
import Peerbit.RatelessIblt.Reconciliation
import Peerbit.RatelessIblt.Sessions
import Peerbit.Lib.RingArcs
import Peerbit.SharedLog.RangeArcs
import Peerbit.SharedLog.CoveringRanges
import Peerbit.SharedLog.ReorderQueue
import Peerbit.SharedLog.SyncRange
import Peerbit.SharedLog.CoverSetEnds
import Peerbit.SharedLog.SampleHint
import Peerbit.SharedLog.ReplacedRanges
import Peerbit.SharedLog.ReplicatorSet
import Peerbit.SharedLog.MaturityTimers
import Peerbit.SharedLog.GivenUpRanges
import Peerbit.Lib.LastWord
import Peerbit.SharedLog.Announcements
import Peerbit.Lib.Surplus
import Peerbit.RatelessIblt.RepeatedSymbols
import Peerbit.RatelessIblt.Completion
import Peerbit.RatelessIblt.Unbalanced
import Peerbit.SharedLog.RatelessSync
import Peerbit.SharedLog.Rebalance
import Peerbit.SharedLog.SamplesAgree
import Peerbit.SharedLog.RebalanceRuns
import Peerbit.Lib.LiveMap
import Peerbit.SharedLog.SyncInverse
import Peerbit.Lib.FirstMet
import Peerbit.SharedLog.UniqueGids
import Peerbit.Log.TrimLength
import Peerbit.Lib.StackWalk
import Peerbit.Log.RecursiveDelete
import Peerbit.Lib.Failing
import Peerbit.Log.FailedPut
import Peerbit.Log.CreatedEntries
import Peerbit.Log.ReferenceSamples
import Peerbit.Indexer.FlattenQuery
import Peerbit.Indexer.QueriedTables
import Peerbit.Lib.LeftJoins
import Peerbit.Indexer.SelectedTables
import Peerbit.Indexer.JoinedRows
import Peerbit.Indexer.CountRows
import Peerbit.Indexer.HashmapPaging
import Peerbit.Indexer.StringMatches
import Peerbit.Indexer.ByteFields
import Peerbit.Transport.RouteLists
import Peerbit.Transport.ConfirmedPaths
import Peerbit.Transport.RouteCleanup
import Peerbit.Utils.CacheRuns
import Peerbit.Indexer.SqlNames
import Peerbit.Indexer.LinkedTables
import Peerbit.Indexer.DeletedRows
import Peerbit.Indexer.DeletedIds
import Peerbit.Transport.RouteRemoval
import Peerbit.Transport.PrunableNeighbours
import Peerbit.Transport.Fanout
import Peerbit.Indexer.IteratorSeries
import Peerbit.SharedLog.JoinedIterators
import Peerbit.SharedLog.NearestRange
import Peerbit.Rpc.QueryAll
import Peerbit.DString.StringSearch
import Peerbit.Blocks.RemoteBlocks
import Peerbit.Blocks.BlockReads
import Peerbit.Blocks.FailedReads
import Peerbit.Lib.EvenSpacing
import Peerbit.SharedLog.Integers
import Peerbit.RatelessIblt.RemoveSymbol
import Peerbit.Lib.Batches
import Peerbit.SharedLog.Debounce
import Peerbit.Lib.Trails
import Peerbit.Transport.Network
import Peerbit.Transport.NetworkRoutes
import Peerbit.Lib.Spreading
import Peerbit.Transport.RelayBounds
import Peerbit.Transport.SeekDelivery
import Peerbit.RatelessIblt.Sketches
import Peerbit.Lib.Holders
import Peerbit.Program.Lifecycle
import Peerbit.Program.LifecycleRuns
import Peerbit.Program.LostReferences
import Peerbit.SharedLog.SyncNetwork
import Peerbit.SharedLog.SyncNotes
import Peerbit.SharedLog.SyncOffers
import Peerbit.AccessControl.AccessController
import Peerbit.AccessControl.SealedKeys
import Peerbit.Rpc.RequestRuns
