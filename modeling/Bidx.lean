import Bidx.Lib.LittleEndian
import Bidx.Lib.KeyValue
import Bidx.Core.Types
import Bidx.Core.Cursor
import Bidx.Core.Script
import Bidx.Parser.Tx
import Bidx.Parser.RoundTrip
import Bidx.Store.Codec
import Bidx.Store.Utxo
import Bidx.Store.ApplySpec
import Bidx.Store.Disconnect
import Bidx.Store.CacheInvisible
import Bidx.Lib.Ledger
import Bidx.Store.LedgerRefinement
import Bidx.Lib.ParentForest
import Bidx.Parser.Chain
import Bidx.Parser.MainChain
import Bidx.Pipeline.Arrival
import Bidx.Lib.Fallible
import Bidx.Live.Tracker
import Bidx.Parser.RowShape
import Bidx.Store.BlockEffect
import Bidx.Live.Chain
import Bidx.Live.Follow
import Bidx.Live.Reorg
import Bidx.Live.Linkage
import Bidx.Live.Recovery
import Bidx.Pipeline.RunParse
import Bidx.Pipeline.BulkReplay
import Bidx.Core.Network
import Bidx.Lib.Keystream
import Bidx.Parser.BlkFile
import Bidx.Parser.BlkFraming
import Bidx.Parser.OrderIndependence
import Bidx.Lib.TextLines
import Bidx.Core.Disk
import Bidx.Core.CheckpointHistory
import Bidx.Lib.LeastSquares
import Bidx.Core.Projection
import Bidx.Store.Parquet
import Bidx.Live.Sink
import Bidx.Pipeline.Workers
import Bidx.Pipeline.Shutdown
import Bidx.Pipeline.Backpressure
import Bidx.Store.BlockResult
import Bidx.Live.EntryHeights
import Bidx.Live.Handoff
import Bidx.Pipeline.Resume
import Bidx.Live.Agreement
import Bidx.Pipeline.SpendGraph
import Bidx.Pipeline.Reprocess
import Bidx.Lib.PrefixCode
import Bidx.Store.UndoBytes
import Bidx.Store.Accounting
import Bidx.Store.CacheBudget
import Bidx.Store.FailedApply
import Bidx.Store.DoubleSpend
import Bidx.Live.Events
import Bidx.Live.FailedCalls
import Bidx.Core.Multisig
import Bidx.Core.ScriptTemplates
import Bidx.Core.ScriptBounds
import Bidx.Core.AddressIdentity
import Bidx.Parser.Accepted
import Bidx.Parser.BlockWeight
import Bidx.Parser.Coverage
import Bidx.Parser.ExactNumbers
import Bidx.Parser.ParserBounds
import Bidx.Parser.RowIntegrity
import Bidx.Parser.RecordWalk
import Bidx.Parser.TruncatedHistory
import Bidx.Pipeline.ReorderBound
import Bidx.Parser.BlocksDir
import Bidx.Lib.Hex
import Bidx.Live.Orphans
import Bidx.Lib.ColumnMajor
import Bidx.Store.ParquetColumns
import Bidx.Lib.Lru
import Bidx.Pipeline.FileCache
import Bidx.Lib.Ranking
import Bidx.Pipeline.Sequential
import Bidx.Pipeline.Termination
import Bidx.Pipeline.StoredBlocks
import Bidx.Pipeline.FromDisk
import Bidx.Pipeline.WrittenDir
import Bidx.Live.LiveLoop
import Bidx.Live.LiveOutput
import Bidx.Pipeline.DiskGuard
import Bidx.Store.BlockStack
import Bidx.Lib.Json
import Bidx.Live.NodeClient
import Bidx.Pipeline.Bench
import Bidx.Pipeline.Trials
import Bidx.Pipeline.Interrupted
import Bidx.Pipeline.Rerun
