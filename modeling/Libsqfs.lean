import Libsqfs.Bytes
import Libsqfs.FramedStream
import Libsqfs.Env
import Libsqfs.Metatable
import Libsqfs.MetatableStream
import Libsqfs.MetatableReader
import Libsqfs.MetatableIndex
import Libsqfs.IdTable
import Libsqfs.Xattr
import Libsqfs.XattrReference
import Libsqfs.XattrCodec
import Libsqfs.IndexedTables
import Libsqfs.Bulkdata
import Libsqfs.Pipeline
import Libsqfs.BulkdataStages
import Libsqfs.PipelineChunks
import Libsqfs.PipelineSound
import Libsqfs.PipelineProgress
import Libsqfs.BulkdataPlan
import Libsqfs.BulkdataPacking
import Libsqfs.FragmentBlocks
import Libsqfs.PipelineReference
import Libsqfs.PipelineFragments
import Libsqfs.PipelineErrors
import Libsqfs.Inodes
import Libsqfs.Calls
import Libsqfs.DirectoryEntries
import Libsqfs.DirectoryMap
import Libsqfs.LinkCounts
import Libsqfs.Forest
import Libsqfs.DirectoryEncode
import Libsqfs.DirectoryRuns
import Libsqfs.DirectoryCodec
import Libsqfs.Serialize
import Libsqfs.SerializeFrame
import Libsqfs.DirectoryTree
import Libsqfs.DirectoryIndex
import Libsqfs.NameLengths
import Libsqfs.XattrFailures
import Libsqfs.Compressors
import Libsqfs.DataSource
import Libsqfs.RecordCodec
import Libsqfs.Superblock
import Libsqfs.Finalize
import Libsqfs.ByteOrder
import Libsqfs.OperationTables
import Libsqfs.PipelineAbort
import Libsqfs.PipelineSealed
import Libsqfs.Session
import Libsqfs.SerializePlaces
import Libsqfs.Layout
import Libsqfs.ExportTable
import Libsqfs.ChunkWorkq
import Libsqfs.PipelineQueues
import Libsqfs.DeviceNumbers
import Libsqfs.TableLayout
import Libsqfs.ImageRun
import Libsqfs.ImageLayout
import Libsqfs.TreeImage
import Libsqfs.FileItems
import Libsqfs.PlanContents
import Libsqfs.FileReader
import Libsqfs.FileContent
import Libsqfs.ImageContents
import Libsqfs.PipelineTermination
import Libsqfs.PipelineCompletion
import Libsqfs.XattrContents
import Libsqfs.ImageStat
import Libsqfs.Reproducible
import Libsqfs.PathReader
import Libsqfs.NextFit
import Libsqfs.FragmentPacking
import Libsqfs.PipelineMemory
import Libsqfs.ImageOptions
import Libsqfs.FileRoundTrip
