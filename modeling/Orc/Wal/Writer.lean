import Orc.Codec.Frame
import Orc.Disk

/-!
# The log writer

The active segment is a file behind a write buffer. Appends go to the buffer and reach the file when
it is drained; a roll drains and syncs the file, creates the next segment and swaps it in. A failed
drain keeps the bytes it could not write, and a string of at least the buffer's capacity is written
to the file directly, so only such a write can leave part of an append behind.

Each function below runs with the lock held, so it is one program over the directory and the
writer's state; the committer's `sync_data`, which runs without the lock, is a program of its own.
`Log.acked` and `Log.failed` are history: what was acknowledged and what was not, by segment, in
lock order.
-/

namespace Orc

open Bytes Fault

/-- Capacity of the write buffer in front of the segment file. -/
def writeBufferBytes : ℕ := 256 * 1024

/-- The segment appended to. -/
structure Active where
  id : ℕ
  /-- Accepted, but not yet written to the file. -/
  buf : Bytes := []
  /-- Bytes accepted, header included. -/
  bytes : ℕ
  /-- Bytes known durable. -/
  synced : ℕ
  deriving DecidableEq

/-- Bytes accepted and not known durable. -/
def Active.dirty (a : Active) : ℕ := a.bytes - a.synced

/-- What the lock protects. -/
structure State where
  /-- `none` once closed. -/
  active : Option Active := none
  stop : Bool := false
  appended : ℕ := 0
  /-- A torn frame awaits sealing: appends are refused until a roll succeeds. -/
  needsRoll : Bool := false
  deriving DecidableEq

/-- The log directory and the writer on it. -/
structure Log where
  dir : Std.ExtTreeMap ℕ SegFile := {}
  state : State := {}
  /-- History: the appends acknowledged, with the segment each went to. -/
  acked : List (ℕ × Bytes) := []
  /-- History: the appends that failed while writing. -/
  failed : List (ℕ × Bytes) := []
  /-- History: what the buffer still held when it was dropped by a close. -/
  lost : Bytes := []
  deriving DecidableEq

/-- A program over the log. -/
abbrev WalIo (α : Type) := Prog Op Log Error α

/-- Change a segment file, if it is there. -/
def updateFile (id : ℕ) (g : SegFile → SegFile) (dir : Std.ExtTreeMap ℕ SegFile) :
    Std.ExtTreeMap ℕ SegFile :=
  match dir[id]? with
  | none => dir
  | some f => dir.insert id (g f)

/-- A file after an append to it. -/
def SegFile.append (b : Bytes) (f : SegFile) : SegFile := { f with bytes := f.bytes ++ b }

/-- A file after an fsync. -/
def SegFile.sync (f : SegFile) : SegFile := { f with synced := f.bytes.length }

namespace Log

def appendFile (log : Log) (id : ℕ) (b : Bytes) : Log :=
  { log with dir := updateFile id (SegFile.append b) log.dir }

def syncFile (log : Log) (id : ℕ) : Log := { log with dir := updateFile id SegFile.sync log.dir }

def setActive (log : Log) (a : Option Active) : Log :=
  { log with state := { log.state with active := a } }

def setNeedsRoll (log : Log) (b : Bool) : Log :=
  { log with state := { log.state with needsRoll := b } }

/-- The first `n` bytes of the buffer have moved to the file. -/
def drained (log : Log) (a : Active) (n : ℕ) : Log :=
  (log.appendFile a.id (a.buf.take n)).setActive (some { a with buf := a.buf.drop n })

/-- An append went into segment `a`, whose buffer is now `buf`. -/
def ack (log : Log) (a : Active) (buf bytes : Bytes) : Log :=
  { log with
    state := { log.state with
      active := some { a with buf, bytes := a.bytes + bytes.length }
      appended := log.state.appended + bytes.length }
    acked := log.acked ++ [(a.id, bytes)] }

/-- An append to segment `id` failed while writing. -/
def fail (log : Log) (id : ℕ) (bytes : Bytes) : Log :=
  { log.setNeedsRoll true with failed := log.failed ++ [(id, bytes)] }

end Log

/-! ## The write buffer -/

/-- Write the buffer to the file; what a failed write did not write stays in it. -/
def flushBuf (a : Active) : WalIo Unit :=
  if a.buf = [] then
    pure ()
  else do
    let (_, whole) ← Prog.write .walWrite a.buf.length fun n (log : Log) ↦ log.drained a n
    if whole then pure () else Prog.fail ioError

/-- Write bytes to the file past the buffer. -/
def writeDirect (a : Active) (bytes : Bytes) : WalIo Unit := do
  let (_, whole) ← Prog.write .walWrite bytes.length fun n (log : Log) ↦
    log.appendFile a.id (bytes.take n)
  if whole then pure () else Prog.fail ioError

/-- Drain the buffer if the bytes do not fit behind what it holds. Returns what it then holds. -/
def makeSpace (a : Active) (bytes : Bytes) : WalIo Bytes :=
  if writeBufferBytes - a.buf.length < bytes.length then do
    flushBuf a
    return []
  else
    return a.buf

/-- `BufWriter::write_all`. Returns what the buffer holds afterwards. -/
def writeAll (a : Active) (bytes : Bytes) : WalIo Bytes :=
  if bytes.length < writeBufferBytes - a.buf.length then
    return a.buf ++ bytes
  else do
    let buf ← makeSpace a bytes
    if writeBufferBytes ≤ bytes.length then do
      writeDirect a bytes
      return buf
    else
      return buf ++ bytes

/-! ## Segments -/

/-- Appends to a closed writer fail. -/
def closed : Error := .io .closed

/-- Write the header of a new segment. -/
def writeHeader (id : ℕ) : WalIo Unit := do
  let (_, whole) ← Prog.write .segmentHeader (encodeSegmentHeader id).length fun n (log : Log) ↦
    log.appendFile id ((encodeSegmentHeader id).take n)
  if whole then pure () else Prog.fail ioError

/-- Create a segment: write the header, sync the file, then sync the directory. The name must be
new. -/
def createSegment (id : ℕ) : WalIo Active := do
  Prog.op .segmentCreate ioError fun log : Log ↦
    if id ∈ log.dir then .error (.io .alreadyExists)
    else .ok ((), { log with dir := log.dir.insert id {} })
  writeHeader id
  Io.step .segmentSync fun log : Log ↦ log.syncFile id
  Io.touch .walDirSync
  Io.touch .segmentClone
  return ⟨id, [], segmentHeaderBytes, segmentHeaderBytes⟩

/-- Drain and sync under the lock. -/
def syncInLock (a : Active) : WalIo Unit := do
  flushBuf a
  Io.step .walSync fun log : Log ↦ log.syncFile a.id
  Prog.modify fun log : Log ↦ log.setActive (some { a with buf := [], synced := a.bytes })

/-- Seal the active segment and open its successor; returns the sealed id. -/
def roll : WalIo ℕ := do
  match ← Prog.look fun log : Log ↦ log.state.active with
  | none => Prog.fail closed
  | some a => do
    syncInLock a
    let next ← createSegment (a.id + 1)
    Prog.modify fun log : Log ↦ log.setActive (some next)
    return a.id

/-- Roll, clearing `needsRoll` only on success. -/
def rollNow : WalIo ℕ := do
  let id ← roll
  Prog.modify fun log : Log ↦ log.setNeedsRoll false
  return id

/-! ## The operations -/

/-- Appends behind a torn frame are refused. -/
def torn : Error := .io .torn

/-- `WalWriter::append` and `append_batch`. -/
def appendBytes (bytes : Bytes) : WalIo Unit := do
  let state ← Prog.look fun log : Log ↦ log.state
  if state.needsRoll then
    Prog.fail torn
  else
    match state.active with
    | none => Prog.fail closed
    | some a => do
      match ← Prog.attempt (writeAll a bytes) with
      | .ok buf => Prog.modify fun log : Log ↦ log.ack a buf bytes
      | .error e => do
        -- a partial write may have left a torn frame: roll, so that it stays at a segment's tail
        Prog.modify fun log : Log ↦ log.fail a.id bytes
        Io.ignore rollNow
        Prog.fail e

/-- Seal the active segment unless it is empty; called by the flush. -/
def sealSegment : WalIo (Option ℕ) := do
  match ← Prog.look fun log : Log ↦ log.state.active with
  | none => Prog.fail closed
  | some a =>
    if a.bytes = segmentHeaderBytes then
      return none
    else do
      let id ← rollNow
      return some id

/-- Drop the active segment: its buffer is written once more, and what that leaves is lost. -/
def dropActive : WalIo Unit := do
  match ← Prog.look fun log : Log ↦ log.state.active with
  | none => pure ()
  | some a => do
    Io.ignore (flushBuf a)
    Prog.modify fun log : Log ↦
      { log.setActive none with lost := (log.state.active.map Active.buf).getD [] }

/-- The end of `WalWriter::close`, once the committer has been told to stop. -/
def close : WalIo Unit := do
  match ← Prog.look fun log : Log ↦ log.state.active with
  | none => pure ()
  | some a => do
    let r ← Prog.attempt (syncInLock a)
    dropActive
    Prog.ofExcept r

/-- Create `wal/` and the first segment. -/
def openWriter (firstSegment : ℕ) : WalIo Unit := do
  Io.touch .walMkdir
  Io.touch .dataDirSync
  let active ← createSegment firstSegment
  Prog.modify fun log : Log ↦ log.setActive (some active)

/-! ## The committer -/

/-- Where the committer stands between two of its sections. -/
inductive Pc where
  /-- About to look whether a group commit is due. -/
  | waiting
  /-- Segment `id` has been drained; its first `upto` bytes are to be synced, without the lock. -/
  | syncing (id upto : ℕ)
  /-- The sync has succeeded and is to be noted. -/
  | noting (id upto : ℕ)
  /-- About to look whether a roll is due. -/
  | rolling
  | exited
  deriving DecidableEq, Repr

/-- The committer thread. -/
structure Committer where
  pc : Pc := .waiting
  /-- After a failure, retry even with no new bytes. -/
  retry : Bool := false
  deriving DecidableEq, Repr

/-- The settings of the writer that decide when it commits and rolls. -/
structure WalLimits where
  fsyncBytes : ℕ := 4194304
  segmentMaxBytes : ℕ := 67108864

/-- Is a group commit due? `elapsed`: the interval has passed since the last one. -/
def WalLimits.due (limits : WalLimits) (retry elapsed : Bool) (a : Active) : Bool :=
  retry || (0 < a.dirty && (elapsed || limits.fsyncBytes ≤ a.dirty))

/-- Has the segment reached its size? -/
def WalLimits.full (limits : WalLimits) (active : Option Active) : Bool :=
  active.any fun a ↦ limits.segmentMaxBytes ≤ a.bytes

/-- The first section: drain the buffer if a commit is due. -/
def waitSection (limits : WalLimits) (elapsed : Bool) (c : Committer) : WalIo Committer := do
  let state ← Prog.look fun log : Log ↦ log.state
  if state.stop then
    return { c with pc := .exited }
  else
    match state.active with
    | none => return { c with pc := .exited }
    | some a =>
      if limits.due c.retry elapsed a then do
        match ← Prog.attempt (flushBuf a) with
        | .ok () => return { c with pc := .syncing a.id a.bytes }
        | .error _ => return { pc := .rolling, retry := true }
      else
        return { c with pc := .rolling }

/-- The fsync itself, with the lock released. -/
def syncSection (id upto : ℕ) : WalIo Committer := do
  match ← Prog.attempt (Io.step .walSync fun log : Log ↦ log.syncFile id) with
  | .ok () => return { pc := .noting id upto, retry := false }
  | .error _ => return { pc := .rolling, retry := true }

/-- Note what the sync covered, unless the segment was swapped meanwhile. -/
def noteSection (id upto : ℕ) (c : Committer) : WalIo Committer := do
  Prog.modify fun log : Log ↦
    match log.state.active with
    | some a =>
      if a.id = id then log.setActive (some { a with synced := max a.synced upto }) else log
    | none => log
  return { c with pc := .rolling }

/-- Roll if the segment is full or holds a torn frame. -/
def rollSection (limits : WalLimits) (c : Committer) : WalIo Committer := do
  let state ← Prog.look fun log : Log ↦ log.state
  if limits.full state.active || state.needsRoll then do
    Io.ignore rollNow
    return { c with pc := .waiting }
  else
    return { c with pc := .waiting }

end Orc
