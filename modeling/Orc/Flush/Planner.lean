import Orc.Flush.Decode
import Orc.Flush.Partition
import Orc.Flush.View

/-!
# The flush

`run` turns sealed segments into Parquet files. Its order is the guarantee: decode the segments into
a batch that spills sorted runs when it is over budget, merge each group into one staged file per
hour, sync, commit the manifest, rename the staged files into `series/`, delete the segments, and
last rewrite the views.

The manifest in memory belongs to the caller. It is advanced before the commit, and stays advanced
if the commit fails, so `run` returns it along with its result.

Clearing the runs and writing the views are best effort, and are programs that cannot fail; deleting
the segments can, and then the flush fails although it has been committed. `prepare` is everything
before the commit and `publish` the rest, because a crash is judged by which of the two it falls
into.
-/

namespace Orc

open Bytes Fault Order

/-- What one flush did. -/
structure FlushOutcome where
  /-- Consumed and deleted, ascending; empty means nothing was committed. -/
  segmentsConsumed : List ℕ := []
  filesWritten : List WrittenFile := []
  rowsWritten : ℕ := 0
  rowsDeduplicated : ℕ := 0
  framesRejected : ℕ := 0
  /-- Segment bytes past an undecodable length. -/
  bytesSkipped : ℕ := 0
  deriving DecidableEq

/-! ## Spilled runs -/

/-- Remove `runs/`; a failure costs only disk. -/
def clearRuns : Io Unit := Io.ignore (Io.step .runsClear fun d : Disk ↦ { d with runs := {} })

/-- Spilled runs by group, in the order they were written. -/
structure Spill where
  /-- The number of the last run. -/
  next : ℕ := 0
  groups : List (GroupKey × ℕ) := []
  deriving DecidableEq

namespace Spill

/-- The runs of a group. -/
def runsOf (s : Spill) (g : GroupKey) : List ℕ := (s.groups.filter fun r ↦ r.1 = g).map Prod.snd

/-- Write one run. -/
def writeRun (run : ℕ) (hs : List Head) : Io Unit := do
  RunWriter.create run
  hs.forM fun h ↦ RunWriter.push run h.arrival h.frame
  RunWriter.finish

/-- Write one run for each group. -/
def writeRuns (s : Spill) : List (GroupKey × List Head) → Io Spill
  | [] => pure s
  | (g, hs) :: rest => do
    writeRun (s.next + 1) hs
    writeRuns ⟨s.next + 1, s.groups ++ [(g, s.next + 1)]⟩ rest

/-- Sort the batch, write it out, and empty it; it keeps count of the duplicates it dropped. -/
def spill (s : Spill) (b : Batch) : Io (Spill × Batch) := do
  Io.touch .runsMkdir
  let s ← s.writeRuns b.sort.sources
  return (s, { deduplicated := b.sort.deduplicated })

end Spill

/-! ## Phase 1: decoding -/

/-- Read a segment. -/
def readSegment (id : ℕ) : Io Bytes :=
  Io.read .segmentRead fun d : Disk ↦
    match d.wal[id]? with
    | none => .error (.io .notFound)
    | some f => .ok f.bytes

/-- What the segments decoded so far have given. -/
structure Gathered where
  rejects : RejectSink
  batch : Batch := {}
  spill : Spill := {}
  consumed : List ℕ := []
  schemas : List (GroupKey × List KeyDef) := []
  touched : List String := []
  rowsDecoded : ℕ := 0
  framesRejected : ℕ := 0
  bytesSkipped : ℕ := 0
  deriving DecidableEq

namespace Gathered

/-- Take the counts and the batch over from a decoded segment. -/
def tally (s : Gathered) (r : DecodeState) : Gathered :=
  { s with
    rejects := r.rejects
    batch := r.batch
    framesRejected := s.framesRejected + r.out.framesRejected
    bytesSkipped := s.bytesSkipped + r.out.bytesSkipped }

/-- Note a segment as consumed. Schemas found later take the place of those found before. -/
def consume (s : Gathered) (id : ℕ) (out : Decoded) : Gathered :=
  { s with
    consumed := s.consumed ++ [id]
    schemas := out.schemas ++ s.schemas
    touched := s.touched ++ out.touched
    rowsDecoded := s.rowsDecoded + out.rows }

/-- Spill the batch if it is over budget, unless it is the last. -/
def relieve (s : Gathered) (budget : ℕ) (rest : List ℕ) : Io Gathered :=
  if budget ≤ s.batch.bytes ∧ rest ≠ [] then do
    let (spill, batch) ← s.spill.spill s.batch
    return { s with spill, batch }
  else
    return s

/-- Decode segment after segment. One that cannot be read and could not be moved aside ends the
phase: the watermark must not pass it. -/
def decodeSegments (crc : Bytes → UInt32) (m : Manifest) (budget : ℕ) (s : Gathered) :
    List ℕ → Io Gathered
  | [] => pure s
  | id :: rest => do
    let buf ← readSegment id
    let r ← decodeSegment crc id buf m s.rejects s.batch
    if r.out.unreadable then
      if r.out.quarantined then
        decodeSegments crc m budget (s.tally r) rest
      else
        return s.tally r
    else do
      let s ← ((s.tally r).consume id r.out).relieve budget rest
      decodeSegments crc m budget s rest

end Gathered

/-! ## Phase 2: merging -/

/-- The groups that have records in memory or in runs, in order. -/
def groupKeys (sources : List (GroupKey × List Head)) (spill : Spill) : List GroupKey :=
  canon GroupKey.ord GroupKey.ord (sources.map Prod.fst ++ spill.groups.map Prod.fst)

/-- What the groups merged so far have given. -/
structure Merged where
  staged : List (WrittenFile × Path) := []
  rowsWritten : ℕ := 0
  rowsDeduplicated : ℕ := 0
  /-- The number of the last run. -/
  next : ℕ
  deriving DecidableEq

section Config

variable (flush : FlushConfig) (first last : ℕ)

/-- The files of a group. They are named by the range of segments, so that a repeated flush
overwrites its own output. -/
def target (key : GroupKey) (keys : List KeyDef) : Target where
  series := key.1
  epoch := key.2
  keys := keys
  name := outputFileName first last key.2
  compression := flush.compression
  rowGroupRows := flush.rowGroupRows.toNat

/-- Merge one group and stream it into one staged file per hour. -/
def mergePartition (t : Target) (runs : List ℕ) (memory : Option Source) (s : Merged) :
    Io Merged := do
  let (p, stats, next) ← mergeBounded runs memory flush.mergeFanIn.toNat s.next (Partition.emit t)
    ⟨none, s.staged⟩
  let p ← p.close t
  return ⟨p.staged, s.rowsWritten + stats.emitted, s.rowsDeduplicated + stats.deduplicated, next⟩

/-- Merge one group with its runs and its records in memory. -/
def mergeGroup (sources : List (GroupKey × List Head)) (spill : Spill)
    (schemas : List (GroupKey × List KeyDef)) (s : Merged) (key : GroupKey) : Io Merged :=
  mergePartition flush (target flush first last key ((schemas.lookup key).getD []))
    (spill.runsOf key) (Source.ofHeads ((sources.lookup key).getD [])) s

end Config

/-! ## Staging -/

/-- The directories between `tmp/` and a staged file. -/
def parents (p : Path) : List Path := [p.take 1, p.take 2]

/-- Sync each directory between `tmp/` and the staged files, and `tmp/`. -/
def fsyncStaging (staged : List Path) : Io Unit := do
  (staged.flatMap parents).dedup.forM fun _ ↦ Io.touch .stageDirSync
  Io.touch .stageDirSync

/-- A flush ready to be committed. -/
structure Plan where
  ids : List ℕ
  last : ℕ
  staged : List Path
  touched : List String
  outcome : FlushOutcome
  deriving DecidableEq

/-- Merge and stage what was decoded. -/
def stage (config : Config) (g : Gathered) (first last : ℕ) : Io Plan := do
  Io.touch .tmpMkdir
  let sources := g.batch.sort.sources
  let merged ← (groupKeys sources g.spill).foldlM
    (mergeGroup config.flush first last sources g.spill g.schemas) { next := g.spill.next }
  let staged := merged.staged.map Prod.snd
  fsyncStaging staged
  return {
    ids := g.consumed, last, staged
    touched := g.touched
    outcome := {
      segmentsConsumed := g.consumed
      filesWritten := merged.staged.map Prod.fst
      rowsWritten := merged.rowsWritten
      rowsDeduplicated := merged.rowsDeduplicated + g.batch.sort.deduplicated
      framesRejected := g.framesRejected
      bytesSkipped := g.bytesSkipped } }

/-- Everything before the commit: a flush with nothing to commit ends here. -/
def prepare (crc : Bytes → UInt32) (config : Config) (m : Manifest) (ids : List ℕ) :
    Io (FlushOutcome ⊕ Plan) := do
  let g ← Gathered.decodeSegments crc m config.flush.memoryBudgetBytes.toNat
    { rejects := ⟨config.limits.rejectMaxBytes.toNat, none⟩ } ids
  match g.consumed.head?, g.consumed.getLast? with
  | some first, some last =>
    if g.rowsDecoded = 0 ∧ g.framesRejected = 0 ∧ g.bytesSkipped = 0 then
      return .inl {}
    else do
      let plan ← stage config g first last
      return .inr plan
  | _, _ =>
    -- nothing readable to consume, so nothing may be committed
    return .inl { framesRejected := g.framesRejected, bytesSkipped := g.bytesSkipped }

/-! ## Publishing -/

/-- Rename a committed staged file from `tmp/` into `series/`, and sync the chain of directories. -/
def promote (path : Path) : Io Unit := do
  Io.touch .seriesMkdir
  Prog.op .seriesRename ioError fun d : Disk ↦
    match d.tmp[path]? with
    | none => .error (.io .notFound)
    | some f => .ok ((), { d with tmp := d.tmp.erase path, series := d.series.insert path f })
  Io.touch .seriesDirSync
  Io.touch .seriesDirSync
  Io.touch .seriesDirSync

/-- Delete committed segments. -/
def deleteSegments (ids : List ℕ) : Io Unit := do
  ids.forM removeSegment
  Io.touch .walDirSync

/-- Rewrite `view.sql` for the series touched; failures are ignored. -/
def regenerateViews (m : Manifest) (touched : List String) : Io Unit :=
  (canon utf8 utf8 touched).forM fun name ↦ Io.ignore (do
    Io.touch .seriesMkdir
    Io.step .viewWrite fun d : Disk ↦
      { d with views := d.views.insert name (viewSql name (m.history name)) })

/-- The commit and everything after it. -/
def publish (m : Manifest) (plan : Plan) : Io Unit := do
  m.commit (some (plan.ids, plan.staged))
  plan.staged.forM promote
  deleteSegments plan.ids
  regenerateViews m plan.touched

/-- The manifest a plan commits. -/
def Manifest.advance (m : Manifest) (last now : ℕ) : Manifest :=
  { m with lastFlushedSegment := max m.lastFlushedSegment last, lastFlushAt := some now }

/-- Turn segments into Parquet, commit, and delete them. Returns the manifest in memory as well. The
runs are removed on every way out. -/
def run (crc : Bytes → UInt32) (config : Config) (m : Manifest) (now : ℕ) (segments : List ℕ) :
    Io (Manifest × Except Error FlushOutcome) := do
  let ids := canon (fun n : ℕ ↦ n) (fun n ↦ n) segments
  if ids = [] then
    return (m, .ok {})
  else do
    clearRuns
    match ← Prog.attempt (prepare crc config m ids) with
    | .error e => do
      clearRuns
      return (m, .error e)
    | .ok (.inl outcome) => do
      clearRuns
      return (m, .ok outcome)
    | .ok (.inr plan) => do
      let m := m.advance plan.last now
      let r ← Prog.attempt (publish m plan)
      clearRuns
      return (m, r.map fun _ ↦ plan.outcome)

end Orc
