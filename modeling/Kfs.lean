import Kfs.Base
import Kfs.Lib.LowerBound
import Kfs.Lib.Linked
import Kfs.Lib.Climb
import Kfs.Lib.Decimal
import Kfs.Lib.Delim
import Kfs.Lib.Stream
import Kfs.Lib.Memory
import Kfs.Lib.Tiles
import Kfs.Lib.Undo
import Kfs.Lib.MinElement
import Kfs.Leaves
import Kfs.Tree.Model
import Kfs.Tree.Levels
import Kfs.Tree.Search
import Kfs.Tree.Insert
import Kfs.Tree.Path
import Kfs.Tree.Del
import Kfs.Tree.Lookup
import Kfs.Tree.Run
import Kfs.Tree.Exact
import Kfs.Fs.Model
import Kfs.Fs.Read
import Kfs.Fs.Spec
import Kfs.Fs.Slot
import Kfs.Fs.Hierarchy
import Kfs.Fs.Tidy
import Kfs.Fs.Dumpster
import Kfs.Fs.Atomic
import Kfs.Fs.Keep
import Kfs.Fs.ChunkTable
import Kfs.Fs.Order
import Kfs.Fs.Succeed
import Kfs.Fs.Truncate
import Kfs.Fs.Size
import Kfs.Server.Model
import Kfs.Server.Spec
import Kfs.Server.Atomic
import Kfs.Server.Namespace
import Kfs.Server.Target
import Kfs.Server.Chunks
import Kfs.Server.Numbers
import Kfs.Disk.Entry
import Kfs.Disk.Replay
import Kfs.Disk.Read
import Kfs.Disk.Codec
import Kfs.Disk.Tail
import Kfs.Disk.Checkpoint
import Kfs.Disk.LogFiles
import Kfs.Disk.Getline
import Kfs.Replay.Same
import Kfs.Replay.Redo
import Kfs.Replay.Names
import Kfs.Replay.Written
import Kfs.Replay.LeaseFree
import Kfs.Replay.Seeds
import Kfs.Replay.World
import Kfs.Replay.Renewal
import Kfs.Layout.Model
import Kfs.Layout.Leases
import Kfs.Layout.Clerk
import Kfs.Layout.Servers
import Kfs.Layout.Hibernate
import Kfs.Layout.FanIn
import Kfs.Layout.FanPlaces
import Kfs.Layout.FanRun
import Kfs.Server.Processor
import Kfs.Server.Held
import Kfs.Server.Internal
import Kfs.Layout.LeaseIds
import Kfs.Layout.WriteLoad
import Kfs.Layout.Grant
import Kfs.Layout.Discard
import Kfs.Io.Buffer
import Kfs.Io.DiskRun
import Kfs.Io.Refine
import Kfs.Io.Splice
import Kfs.Chunk.Checksum
import Kfs.Chunk.Read
import Kfs.Chunk.Manager
import Kfs.Chunk.Ops
import Kfs.Chunk.Scavenge
import Kfs.Chunk.Offsets
import Kfs.Chunk.Client
import Kfs.Chunk.BadWrite
import Kfs.Chunk.Ledger
import Kfs.Chunk.Once
import Kfs.Chunk.Gate
import Kfs.Chunk.Sync
import Kfs.Chunk.InOrder
import Kfs.Chunk.Recorded
import Kfs.Chunk.Commit
import Kfs.Chunk.Space
import Kfs.Chunk.Session
import Kfs.Chunk.Range
import Kfs.Chunk.Truncate
import Kfs.Chunk.CleanUp
import Kfs.Server.Intact
import Kfs.Server.Spare
import Kfs.Server.Worm
import Kfs.Server.Total
import Kfs.Server.Alive
import Kfs.Server.Dumpster
import Kfs.Server.Refuge
import Kfs.Layout.Placement
import Kfs.Layout.Replicate
import Kfs.Layout.Moves
import Kfs.Layout.PlaceSteps
import Kfs.Layout.Accounts
import Kfs.Layout.Replicas
import Kfs.Layout.Returns
import Kfs.Layout.Plan
import Kfs.Wire.Properties
import Kfs.Wire.Frame
import Kfs.Wire.Hello
import Kfs.Wire.Requests
import Kfs.Wire.Parse
import Kfs.Wire.Forward
import Kfs.Wire.WriteOps
import Kfs.Wire.WriteChain
import Kfs.Wire.WriteRun
import Kfs.Wire.RemoteSync
import Kfs.Client.PipelinedWrite
import Kfs.Client.PipelinedRead
import Kfs.Client.File
import Kfs.Client.Healthy
import Kfs.Client.Descriptor
import Kfs.Client.Holes
import Kfs.Client.Delivery
import Kfs.Client.ReadBack
import Kfs.Client.Split
import Kfs.Client.Location
import Kfs.Client.BuildPath
import Kfs.Client.FileTable
import Kfs.Client.Verify
import Kfs.Client.Seek
import Kfs.Client.GetResponse
import Kfs.Client.Contiguous
import Kfs.Client.ReadErrors
import Kfs.Layout.Fills
import Kfs.Layout.Target
import Kfs.Io.NetConnection
import Kfs.Replay.Durable
import Kfs.Replay.Compaction
import Kfs.Server.Threads
import Kfs.Client.Agree
