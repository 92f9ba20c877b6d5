import Orc.Net.Client

/-!
# The control protocol

The requests and replies on the control socket. What they look like as bytes is a matter of
`serde_json`, which both ends use, and is not modelled: a `Wire` says how each end writes and reads
them, and nothing is assumed of it where a result does not say so. What a result may assume is
`Wire.Faithful`, that each end reads what the other wrote. The server's results hold without it,
since the server has a reply to every request, also to one that it cannot read; a client needs it to
know that what it reads is what the server replied.
-/

namespace Orc

open Bytes

inductive ControlRequest where
  | ping
  | stats
  | flush
  | schema
  | reloadConfig
  | shutdown
  deriving DecidableEq, Repr

/-- A snapshot of the engine's counters. -/
structure Stats where
  appended : UInt64 := 0
  rejectedTs : UInt64 := 0
  rejectedSize : UInt64 := 0
  rejectedSeries : UInt64 := 0
  rejectedFrames : UInt64 := 0
  /-- Consecutive failed flushes. -/
  flushFailures : UInt64 := 0
  rowsFlushed : UInt64 := 0
  rowsDeduplicated : UInt64 := 0
  /-- Bytes in the active segment. -/
  walBytes : UInt64 := 0
  /-- All bytes of the log. -/
  walTotalBytes : UInt64 := 0
  segment : UInt64 := 0
  deriving DecidableEq, Repr

/-- The counters, and the batches received on the ingest socket. -/
structure StatsPayload where
  engine : Stats := {}
  batchesReceived : UInt64 := 0
  deriving DecidableEq, Repr

/-- The result of a flush. -/
structure FlushPayload where
  segmentsConsumed : List UInt64 := []
  rowsWritten : UInt64 := 0
  rowsDeduplicated : UInt64 := 0
  framesRejected : UInt64 := 0
  deriving DecidableEq, Repr

/-- A reply on the control socket, with all that it carries; `ControlResponse` is what the handshake
sees of it. -/
inductive ControlReply where
  | pong (version : String)
  | stats (payload : StatsPayload)
  | flushed (payload : FlushPayload)
  | schema (series : List SeriesSchema) (maxBatchBytes : Option UInt64)
  | shuttingDown
  | error (message : String)
  deriving DecidableEq, Repr

/-- A reply as the handshake sees it; `debug` writes out the others. -/
def ControlReply.seen (debug : ControlReply → String) : ControlReply → ControlResponse
  | .schema series maxBatchBytes => .schema series (maxBatchBytes.map UInt64.toNat)
  | .error message => .error message
  | r => .other (debug r)

/-- How requests and replies are written and read, or why they are not: `to_bytes` and `from_bytes`
of both. -/
structure Wire where
  writeRequest : ControlRequest → Except String Bytes
  readRequest : Bytes → Except String ControlRequest
  writeReply : ControlReply → Except String Bytes
  readReply : Bytes → Except String ControlReply

namespace Wire

/-- The bytes of a reply. One that cannot be written is replaced by an error with the reason. -/
def replyBytes (wire : Wire) (reply : ControlReply) : Bytes :=
  match wire.writeReply reply with
  | .ok bytes => bytes
  | .error e => utf8 ("\x7b\"status\":\"error\",\"message\":\"" ++ e ++ "\"\x7d")

/-- What is written as a request is read as that request, and the given replies as what they are. -/
structure Faithful (wire : Wire) (replies : List ControlReply) : Prop where
  request : ∀ r bytes, wire.writeRequest r = .ok bytes → wire.readRequest bytes = .ok r
  reply : ∀ r ∈ replies, wire.readReply (wire.replyBytes r) = .ok r

end Wire

end Orc
