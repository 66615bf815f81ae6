import Nmfs.Lib.ByteStrings
import Nmfs.Lib.FailingCalls
import Nmfs.Lib.Faults
import Nmfs.Lib.Generations
import Nmfs.Lib.Interleavings
import Nmfs.Lib.Links
import Nmfs.Lib.LittleEndian
import Nmfs.Lib.Overwrites
import Nmfs.Lib.Programs
import Nmfs.Lib.RecordChains
import Nmfs.Lib.Recordings
import Nmfs.Lib.Striping
import Nmfs.Lib.Transitions
import Nmfs.Rados.Pool
import Nmfs.Rados.RadosIo
import Nmfs.Rados.ObjectNames
import Nmfs.Rados.ChunkLoops
import Nmfs.Rados.Operations
import Nmfs.Rados.Chunks
import Nmfs.Rados.StorageErrors
import Nmfs.Rados.Footprints
import Nmfs.Rados.FlatStore
import Nmfs.Rados.ConcurrentWrites
import Nmfs.Meta.Uuid
import Nmfs.Meta.Buffers
import Nmfs.Meta.Inode
import Nmfs.Meta.InodeObject
import Nmfs.Meta.Dentry
import Nmfs.Meta.DentryObject
import Nmfs.Meta.Paths
import Nmfs.Meta.PathScan
import Nmfs.Journal.Transaction
import Nmfs.Journal.Rejections
import Nmfs.Journal.JournalTable
import Nmfs.Journal.Record
import Nmfs.Journal.Layout
import Nmfs.Journal.RecordBounds
import Nmfs.Journal.SyncBounds
import Nmfs.Journal.Scan
import Nmfs.Journal.MetaStore
import Nmfs.Journal.Replay
import Nmfs.Journal.Pending
import Nmfs.Journal.Objects
import Nmfs.Journal.Checkpointing
import Nmfs.Journal.LogReplay
import Nmfs.Journal.Threads
import Nmfs.Journal.Dangling
import Nmfs.Journal.ExactlyOnce
import Nmfs.Journal.Checkpoints
import Nmfs.Journal.Shutdown
import Nmfs.Lease.LeaseTable
import Nmfs.Lease.Acquire
import Nmfs.Lease.Refusals
import Nmfs.Lease.Directories
import Nmfs.Lease.Handlers
import Nmfs.Lease.Retry
import Nmfs.Lease.MkdirLease
import Nmfs.Local.DentryTable
import Nmfs.Local.LocalOps
import Nmfs.Local.Entries
import Nmfs.Local.ExclusiveCreate
import Nmfs.Local.RmdirRace
import Nmfs.Local.TwoStep
import Nmfs.Local.SameParent
import Nmfs.Rpc.Messages
import Nmfs.Rpc.Listing
import Nmfs.Rpc.CrossRename
import Nmfs.Rpc.Attributes
import Nmfs.Rpc.MissingEntry
import Nmfs.Rpc.ReadBack
import Nmfs.Rpc.FileData
import Nmfs.Rpc.NamespaceOps
import Nmfs.Tree.Losses
import Nmfs.Tree.Namespace
import Nmfs.Tree.Growth
import Nmfs.Tree.Reachable
import Nmfs.Tree.RenameAnswers
import Nmfs.Tree.Acyclic
import Nmfs.Tree.Walk
import Nmfs.Tree.PathNames
import Nmfs.Tree.ChildMaps
import Nmfs.Tree.TwoCopies
import Nmfs.Tree.DirTimes
import Nmfs.Journal.Leaders
import Nmfs.Tree.Mirrors
import Nmfs.Tree.Moves
import Nmfs.Tree.WriteBehind
import Nmfs.Tree.HandOver
import Nmfs.Session.ClientIds
