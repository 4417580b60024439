import Hdf5Pure.Space.FreeListLoans
import Hdf5Pure.Space.PagedSessionTheorems
import Hdf5Pure.Space.AggregatorRuns
import Hdf5Pure.Filter.PipelineTheorems
import Hdf5Pure.Edit.DeletionsTheorems
import Hdf5Pure.Edit.CommitTheorems
import Hdf5Pure.Image.ImageRuns
import Hdf5Pure.Append.RejectionTheorems
import Hdf5Pure.Heap.PackedWalkTheorems
import Hdf5Pure.Heap.CheckpointTheorems
import Hdf5Pure.Space.ReopenTheorems
import Hdf5Pure.Space.SectionLimitTheorems
import Hdf5Pure.FreeSpace.RecoveryTheorems
import Hdf5Pure.Space.ReleaseFreedTheorems
import Hdf5Pure.Chunk.CoverageTheorems
import Hdf5Pure.Chunk.ChunkSpanTheorems
import Hdf5Pure.Mat.IdentifierTheorems
import Hdf5Pure.Format.ChecksumStream
