import Orc.Engine.Ingest
import Orc.Flush.Sweep
import Orc.Wal.Recovery
import Orc.Wal.Runs

/-!
# A data directory and the engine on it

An engine opens a data directory, appends, flushes, and stops: it is closed or killed, or the
process ends in the middle of a file-system operation. Then it may be started again, perhaps with
another config. `Node.after` is one such event; a run is any sequence of them, each with an oracle
of its own.

## Representation

The writer's segments are the files of `wal/`, so a program of the log is one over the directory and
the writer's state. They are two views of one set of files: `Site.wal` reads the log's state off the
directory and `Site.setWal` writes it back, and `onLog` runs a program of the log through them. In
this way the log is verified on its own, in `Orc.Wal`, and nothing about it is proved again for the
directory.

An event takes an oracle because faults are not chosen once for a run: a disk that is full during
one flush may have room for the next. An event that is stopped leaves a directory without a process
(`Node.settle`), whatever operation it was stopped at; one that fails leaves the process as it was,
and a start that fails leaves none.

## What is left out

The directory lock is not represented here: there is one process at a time, which is what the lock
is for (`Orc.Fault.Lock`). Flushes and appends of different threads interleave only at the
granularity of events. The engine holds a mutex for the whole of a flush, and the writer another for
the whole of an append, but a flush releases the writer after the seal; what then runs concurrently
works on different segments.
-/

namespace Orc

open Bytes Fault

/-- The data directory, and the state of the log writer on it, whose own directory is unused. -/
structure Site where
  disk : Disk := {}
  log : Log := {}
  deriving DecidableEq

/-- A program over the directory and the writer. -/
abbrev SiteIo (α : Type) := Prog Op Site Error α

/-- The log as its programs see it. -/
def Site.wal (s : Site) : Log := { s.log with dir := s.disk.wal }

def Site.setWal (log : Log) (s : Site) : Site :=
  ⟨{ s.disk with wal := log.dir }, { log with dir := {} }⟩

/-- The id of the segment appended to; zero if there is none. -/
def Site.active (s : Site) : ℕ := (s.log.state.active.map Active.id).getD 0

/-- Run a program of the directory. -/
def onDisk {α : Type} (p : Io α) : SiteIo α :=
  Prog.zoom Site.disk (fun d s ↦ { s with disk := d }) p

/-- Run a program of the log. -/
def onLog {α : Type} (p : WalIo α) : SiteIo α := Prog.zoom Site.wal Site.setWal p

/-- A running engine. -/
structure Process where
  engine : Engine
  /-- The manifest in memory. -/
  manifest : Manifest
  committer : Committer := {}
  flushFailures : ℕ := 0
  deriving DecidableEq

/-- The writer's settings in a config. -/
def Config.walLimits (c : Config) : WalLimits :=
  ⟨c.wal.fsyncBytes.toNat, c.wal.segmentMaxBytes.toNat⟩

section Programs

variable (crc : Bytes → UInt32) (lower : String → String)

namespace Process

/-- After a failed flush, its staged files are settled before the next one. -/
def resweep (p : Process) : Io Unit :=
  if 0 < p.flushFailures then sweepUncommitted p.manifest.lastFlushedSegment else pure ()

/-- The process after a flush. -/
def flushed (p : Process) (r : Manifest × Except Error FlushOutcome) : Process :=
  { p with
    manifest := r.1
    flushFailures := if r.2.isOk then 0 else p.flushFailures + 1 }

/-- Seal the active segment and flush every sealed one. The result of `run` is a value here, because
the manifest in memory changes even if it is an error. -/
def flush (p : Process) (now : ℕ) : SiteIo (Process × Except Error FlushOutcome) := do
  let _ ← onLog sealSegment
  let pending ← onDisk listSegments
  let active ← Prog.look Site.active
  let floor := p.manifest.lastFlushedSegment
  onDisk p.resweep
  let r ← onDisk (run crc p.engine.config p.manifest now
    (pending.filter fun id ↦ id < active ∧ floor < id))
  return (p.flushed r, r.2)

/-- Has the flush interval passed? -/
def flushOverdue (p : Process) (now : ℕ) : Bool :=
  match p.manifest.lastFlushAt with
  | none => true
  | some last => min (p.engine.config.flush.intervalMs.toNat * 1000) u64Max ≤ now - last

/-- The flush at startup; its failure is not one of the start. -/
def startupFlush (p : Process) (now : ℕ) : SiteIo Process := do
  match ← Prog.attempt (p.flush crc now) with
  | .ok r => return r.1
  | .error _ => return p

end Process

/-- Without a manifest there must be no flush output. -/
def requireManifest : Io Unit := do
  let found ← Manifest.exists
  if found then pure () else requireManifestForOutput

/-- New epochs are committed before any frame is stamped with them. -/
def Manifest.commitChanged (m : Manifest) (changed : Bool) : Io Unit :=
  if changed then m.commit none else pure ()

/-- Load the manifest and fold the config in. -/
def openManifest (config : Config) : Io Manifest := do
  requireManifest
  let m ← Manifest.load
  let (m, changed) ← Prog.ofExcept (m.reconcile config)
  m.commitChanged changed
  return m

/-- Everything before the writer is opened: the manifest, the sweep, and recovery. -/
def prepareOpen (config : Config) : Io (Manifest × Recovery) := do
  Prog.ofExcept (config.validate lower)
  let m ← openManifest config
  sweepUncommitted m.lastFlushedSegment
  let found ← recover crc m.lastFlushedSegment
  return (m, found)

/-- `Engine::open`. -/
def openEngine (config : Config) (now : ℕ) : SiteIo Process := do
  let (m, found) ← onDisk (prepareOpen crc lower config)
  onLog (openWriter found.nextSegment)
  let engine ← Prog.ofExcept (Engine.new config m)
  let p : Process := { engine, manifest := m }
  if config.flush.onStartup ∧ found.pending ≠ [] ∧ p.flushOverdue now then
    p.startupFlush crc now
  else
    return p

end Programs

/-! ## Events -/

/-- A data directory, and the engine on it if one is running. -/
structure Node where
  site : Site := {}
  process : Option Process := none
  deriving DecidableEq

/-- One thing that happens to a node. -/
inductive Event where
  | start (config : Config) (now : ℕ)
  /-- A step of a thread on the log, or of the committer. -/
  | wal (act : Action)
  | flush (now : ℕ)
  /-- The process is gone, between two operations. -/
  | kill

/-- The disk when no engine runs. -/
def Node.down (d : Disk) : Node := ⟨⟨d, {}⟩, none⟩

/-- The node after a program of it: an error leaves the process as it was. -/
def Node.settle (p : Option Process) : Outcome Error Process × World Site → Node
  | (.ok p', w) => ⟨w.disk, some p'⟩
  | (.err _, w) =>
    match p with
    | some p => ⟨w.disk, some p⟩
    | none => .down w.disk.disk
  | (.crash, w) => .down w.disk.disk

/-- The program of an event, if it can happen now. -/
def Event.program (crc : Bytes → UInt32) (lower : String → String) :
    Event → Option Process → Option (SiteIo Process)
  | .start config now, none => some (openEngine crc lower config now)
  | .wal act, some p => some do
    let committer ← onLog (act.program p.engine.config.walLimits p.committer)
    return { p with committer }
  | .flush now, some p => some do
    let r ← p.flush crc now
    return r.1
  | _, _ => none

/-- The node after an event. -/
def Node.after (crc : Bytes → UInt32) (lower : String → String) (o : Oracle Op) (e : Event)
    (n : Node) : Node :=
  match e.program crc lower n.process with
  | some p => .settle n.process (p o ⟨n.site, 0⟩)
  | none =>
    match e with
    | .kill => .down n.site.disk
    | _ => n

/-- One event with an oracle the condition allows. -/
def Node.Next (crc : Bytes → UInt32) (lower : String → String)
    (allowed : Node → Oracle Op → Event → Prop) (n n' : Node) : Prop :=
  ∃ o e, allowed n o e ∧ n' = n.after crc lower o e

/-- The nodes that runs of allowed events lead to. -/
def Node.Reaches (crc : Bytes → UInt32) (lower : String → String)
    (allowed : Node → Oracle Op → Event → Prop) : Node → Node → Prop :=
  Relation.ReflTransGen (Node.Next crc lower allowed)

end Orc
