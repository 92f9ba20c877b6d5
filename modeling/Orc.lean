import Orc.Bytes.Basic
import Orc.Bytes.Cursor
import Orc.Bytes.Text
import Orc.Bytes.Crc
import Orc.Order.Canon
import Orc.Order.Classes
import Orc.Order.Heap
import Orc.Fault.Prog
import Orc.Fault.Tree
import Orc.Fault.Reader
import Orc.Machine.Run
import Orc.Record
import Orc.Names
import Orc.Calendar
import Orc.Time
import Orc.Timestamp
import Orc.Codec.Frame
import Orc.Schema.Config
import Orc.Schema.Sizes
import Orc.Schema.Manifest
import Orc.Schema.Reconcile
import Orc.Wal.Reader
import Orc.Codec.Layout
import Orc.Codec.RoundTrip
import Orc.Codec.Cut
import Orc.Codec.Damage
import Orc.Codec.KeyCount
import Orc.Flush.Columns
import Orc.Flush.Extra
import Orc.Format.Packed
import Orc.Format.Levels
import Orc.Format.Sql
import Orc.Flush.Buffers
import Orc.Flush.Groups
import Orc.Flush.Rebuild
import Orc.Disk
import Orc.Flush.Batch
import Orc.Flush.Decode
import Orc.Flush.Account
import Orc.Flush.MemKeys
import Orc.Flush.Merge
import Orc.Flush.Bounded
import Orc.Flush.Reference
import Orc.Flush.Partition
import Orc.Flush.View
import Orc.Flush.ViewLex
import Orc.Flush.Planner
import Orc.Flush.Parts
import Orc.Flush.Gather
import Orc.Flush.RunFile
import Orc.Flush.Expected
import Orc.Flush.Staged
import Orc.Flush.Output
import Orc.Flush.Dedup
import Orc.Flush.Sweep
import Orc.Flush.SweepFiles
import Orc.Flush.SweepTree
import Orc.Flush.SweepDisk
import Orc.Engine.Ingest
import Orc.Engine.Paths
import Orc.Engine.Appends
import Orc.Engine.Sessions
import Orc.Engine.Stall
import Orc.Net.Client
import Orc.Net.Conservation
import Orc.Wal.Listing
import Orc.Wal.Writer
import Orc.Wal.Sections
import Orc.Wal.Runs
import Orc.Wal.Integrity
import Orc.Wal.FailedRolls
import Orc.Wal.TailOnly
import Orc.Wal.Durability
import Orc.Wal.Recovery
import Orc.Wal.TornTail
import Orc.Wal.Lock
import Orc.Engine.Framing
import Orc.Engine.Node
import Orc.Engine.Effects
import Orc.Engine.Replay
import Orc.Engine.Steps
import Orc.Engine.Published
import Orc.Engine.FlushCount
import Orc.Engine.CrashSafety
import Orc.Engine.SegmentIds
import Orc.Engine.Versions
import Orc.Engine.LostManifest
import Orc.Net.Protocol
import Orc.Net.Server
import Orc.Net.Serving
import Orc.Net.Turns
import Orc.Net.Intake
import Orc.Net.Requests
import Orc.Net.Shutdown
import Orc.Net.Handshake
import Orc.Net.Delivery
