import Baerly.Lib.Prog
import Baerly.Lib.Interleave
import Baerly.Lib.InsMap
import Baerly.Json
import Baerly.Errors
import Baerly.Coordination.CurrentJson
import Baerly.Coordination.GcPending
import Baerly.LogEntry
import Baerly.Snapshot
import Baerly.Storage
import Baerly.LogTail
import Baerly.Coordination.Manifest
import Baerly.Compactor
import Baerly.LogRetention
import Baerly.Gc
import Baerly.DocId
import Baerly.Writer
import Baerly.Query.Matches
import Baerly.Query
import Baerly.Since
import Baerly.System
import Baerly.Verify.Invariant
import Baerly.Verify.Delivery
import Baerly.Verify.Spec
import Baerly.Verify.Rules
import Baerly.Verify.Manifest
import Baerly.Verify.Compactor
import Baerly.Verify.Gc
import Baerly.Verify.Writer
import Baerly.Verify.Query
import Baerly.Verify.Safety
import Baerly.Verify.Commits
import Baerly.Verify.Reads
import Baerly.Verify.Feed
import Baerly.Verify.Publish
import Baerly.Query.DeepEqual
import Baerly.Query.Satisfiable
import Baerly.Indexes
import Baerly.Query.Implies
import Baerly.Query.Planner
import Baerly.Verify.Implies
import Baerly.Verify.Tail
import Baerly.Verify.Ledger
import Baerly.Lib.Base32
import Baerly.JsonText
import Baerly.Dump
import Baerly.Verify.Dump
import Baerly.IndexKeys
import Baerly.Verify.Segments
import Baerly.IndexWalk
import Baerly.Verify.IndexWalk
import Baerly.Lib.Path
import Baerly.Verify.Markers
import Baerly.Verify.Walks
import Baerly.Verify.WalkScan
import Baerly.SnapshotCodec
import Baerly.Verify.Canonical
import Baerly.Verify.SnapshotCodec
import Baerly.Verify.SnapshotManifest
import Baerly.ChunkedFold
import Baerly.Verify.SnapshotCodec
import Baerly.Verify.ChunkRouting
import Baerly.Verify.ChunkGroups
import Baerly.Lib.Greedy
import Baerly.Verify.ChunkSplit
import Baerly.Verify.ChunkBuilder
import Baerly.Verify.ChunkPlan
import Baerly.Verify.ChunkMint
import Baerly.Verify.ChunkTotal
import Baerly.Verify.JsonSize
import Baerly.SnapshotView
import Baerly.Verify.SnapshotView
import Baerly.Verify.ChunkFold
import Baerly.Verify.Alone
import Baerly.Verify.CompactFold
import Baerly.Capacity
import Baerly.Verify.Capacity
import Baerly.Maintenance
import Baerly.Verify.Requests
import Baerly.Verify.Maintenance
import Baerly.Retry
import Baerly.Verify.Retry
import Baerly.Merge
import Baerly.Verify.Merge
import Baerly.Query.Normalize
import Baerly.Verify.Satisfiable
import Baerly.Verify.Normalize
import Baerly.Query.RawWire
import Baerly.Verify.RawWire
import Baerly.Lib.Comparator
import Baerly.Query.Order
import Baerly.Verify.Order
import Baerly.RebuildIndex
import Baerly.Verify.RebuildIndex
import Baerly.Mutation
import Baerly.Verify.Mutation
import Baerly.SubscriptionPool
import Baerly.Verify.TablePolls
import Baerly.Verify.SubscriptionPool
import Baerly.Lib.Float64
import Baerly.Verify.IndexOrder
import Baerly.SnapshotDocId
import Baerly.Verify.SnapshotDocId
import Baerly.Lib.Radix
import Baerly.CursorText
import Baerly.Verify.CursorText
import Baerly.LocalFsKeyCodec
import Baerly.Verify.LocalFsKeyCodec
import Baerly.Export
import Baerly.Verify.Export
import Baerly.Verify.ExportTable
import Baerly.Lib.SqlText
import Baerly.Verify.ExportText
import Baerly.Fsck
import Baerly.Verify.Fsck
import Baerly.ExportWhere
import Baerly.Lib.SqlWhere
import Baerly.Verify.ExportWhere
import Baerly.Lib.Percent
import Baerly.UseQuery
import Baerly.Verify.UseQuery
import Baerly.Verify.MarkerOrder
import Baerly.Verify.MarkerRuns
import Baerly.Verify.LocalFsRuns
import Baerly.Verify.Linearizable
import Baerly.Verify.Progress
import Baerly.Lib.Simulation
import Baerly.Adapters
import Baerly.Transport
import Baerly.Verify.Adapters
import Baerly.Verify.Transport
import Baerly.Verify.WireLinearizable
