import NeuralDb.Library.BeamSearch
import NeuralDb.Library.EventLog
import NeuralDb.Library.ByteCodec
import NeuralDb.Library.Grammar
import NeuralDb.Library.Lanes
import NeuralDb.Library.StampSet
import NeuralDb.Library.OutStream
import NeuralDb.Library.Framing
import NeuralDb.Library.TopK
import NeuralDb.Library.BitPack
import NeuralDb.Library.Lru
import NeuralDb.Library.Paging
import NeuralDb.Library.Returns
import NeuralDb.Library.Overwrite
import NeuralDb.Library.NodeList
import NeuralDb.Library.Rounding
import NeuralDb.Kernel
import NeuralDb.Simd
import NeuralDb.Flat.Index
import NeuralDb.Flat.Search
import NeuralDb.Flat.Compaction
import NeuralDb.Hnsw.State
import NeuralDb.Hnsw.Index
import NeuralDb.Hnsw.GraphInvariant
import NeuralDb.Hnsw.History
import NeuralDb.Hnsw.Invariant
import NeuralDb.Hnsw.Search
import NeuralDb.Hnsw.Deletion
import NeuralDb.Hnsw.LayerSearch
import NeuralDb.Hnsw.Connectivity
import NeuralDb.Hnsw.Exact
import NeuralDb.Hnsw.Exhaustive
import NeuralDb.Hnsw.Starvation
import NeuralDb.Hnsw.NodeIds
import NeuralDb.Hnsw.Prefix
import NeuralDb.Hnsw.Erasure
import NeuralDb.Library.BeamWidth
import NeuralDb.Hnsw.Effort
import NeuralDb.Hnsw.Stamps
import NeuralDb.Persist.IndexFile
import NeuralDb.Persist.Wal
import NeuralDb.Persist.TornTail
import NeuralDb.Persist.Compact
import NeuralDb.Persist.Recovery
import NeuralDb.Persist.Reload
import NeuralDb.Persist.Session
import NeuralDb.Persist.Crash
import NeuralDb.Persist.Truncation
import NeuralDb.Persist.Handles
import NeuralDb.Persist.Format
import NeuralDb.Persist.Receiver
import NeuralDb.Persist.Resave
import NeuralDb.Persist.Malformed
import NeuralDb.Persist.ShortWrite
import NeuralDb.Paged.Store
import NeuralDb.Paged.Blocks
import NeuralDb.Paged.Cache
import NeuralDb.Paged.Simulation
import NeuralDb.Paged.Mirror
import NeuralDb.Paged.Agreement
import NeuralDb.Paged.Layout
import NeuralDb.Paged.Offsets
import NeuralDb.Paged.Reopen
import NeuralDb.Paged.ReadBack
import NeuralDb.Paged.Alignment
import NeuralDb.Paged.Recency
import NeuralDb.Paged.Iterators
import NeuralDb.Paged.Transparency
import NeuralDb.Paged.Audit
import NeuralDb.Paged.Residency
import NeuralDb.Paged.Leaks
import NeuralDb.Paged.Loads
import NeuralDb.Concurrent.Machine
import NeuralDb.Concurrent.Steps
import NeuralDb.Concurrent.Visited
import NeuralDb.Concurrent.Defined
import NeuralDb.Concurrent.Snapshot
import NeuralDb.Concurrent.Table
import NeuralDb.Concurrent.Hits
import NeuralDb.Concurrent.Progress
import NeuralDb.Concurrent.Solo
import NeuralDb.Concurrent.Linking
import NeuralDb.Concurrent.LostLinks
import NeuralDb.Concurrent.Parallel
import NeuralDb.Filter.Json
import NeuralDb.Filter.Where
import NeuralDb.Filter.Compare
import NeuralDb.Filter.Integers
import NeuralDb.Python.Arrays
import NeuralDb.Python.Bindings
import NeuralDb.Cli.Npy
import NeuralDb.Cli.Bench
import NeuralDb.Python.Filtered
import NeuralDb.Python.Metadata
import NeuralDb.Python.Session
