import Orc.Codec.Frame
import Orc.Time

/-!
# Configuration

The fields of `config.json` that the engine's logic reads, with their defaults, and `validate`,
which checks every invariant the engine assumes. Sums of sizes are machine additions on 64 bits.

Case folding is Unicode's and stands as a parameter `lower`; only the check for series that differ
in case uses it.

A result about the engine assumes a validated config, and never a property of the config that
`validate` does not check. The last section collects what may be relied on, per series
(`SeriesChecked`) and for the sizes in `Orc.Schema.Sizes`. Errors carry their field and their text,
in the order of the checks, so the first check that fails is the one reported.
-/

namespace Orc

open Bytes Text

/-- Parquet codecs compiled in. -/
def supportedCompression : List String := ["lz4_raw", "lz4", "uncompressed", "none"]

/-- Fixed Parquet columns a key may not reuse. -/
def reservedKeyNames : List String := ["ts", "id", "extra", "data"]

/-- Upper bound on `flush.interval_ms`: about 100 years. -/
def maxFlushIntervalMs : UInt64 := 100 * 365 * 24 * 60 * 60 * 1000

/-- One declared key column. -/
structure KeyDef where
  name : String
  ty : KeyType
  /-- Enforced at ingest only. -/
  nullable : Bool := false
  deriving DecidableEq, Repr

/-- One declared series: a name, and the typed columns it promises to carry. -/
structure SeriesConfig where
  name : String
  keys : List KeyDef := []
  deriving DecidableEq, Repr

structure ServerConfig where
  /-- Largest ingest message accepted, in bytes. -/
  maxBatchBytes : Int64 := 8388608
  deriving DecidableEq, Repr

structure LimitsConfig where
  /-- Max encoded record size. -/
  maxRecordBytes : UInt64 := 16384
  /-- Total cap on `rejects/`. -/
  rejectMaxBytes : UInt64 := 67108864
  /-- Lower bound of the timestamp accept window, RFC 3339 UTC. -/
  tsMin : String := "2000-01-01T00:00:00Z"
  /-- How far past `now` a timestamp may be. -/
  tsMaxSkewMs : UInt64 := 86400000
  deriving DecidableEq, Repr

structure WalConfig where
  /-- Group-commit window. -/
  fsyncIntervalMs : UInt64 := 10
  /-- Commit sooner once this much dirty data has accumulated. -/
  fsyncBytes : UInt64 := 4194304
  /-- Roll to a new segment past this size. -/
  segmentMaxBytes : UInt64 := 67108864
  deriving DecidableEq, Repr

structure FlushConfig where
  intervalMs : UInt64 := 3600000
  onStartup : Bool := true
  compression : String := "lz4_raw"
  /-- Rows per Parquet row group. -/
  rowGroupRows : UInt64 := 131072
  /-- Max sorted runs merged at once. -/
  mergeFanIn : UInt64 := 64
  /-- Bytes the flush sorts in memory before spilling sorted runs. -/
  memoryBudgetBytes : UInt64 := 268435456
  deriving DecidableEq, Repr

structure Config where
  server : ServerConfig := {}
  limits : LimitsConfig := {}
  wal : WalConfig := {}
  flush : FlushConfig := {}
  series : List SeriesConfig := []
  deriving DecidableEq, Repr

/-- `ts_min` as epoch microseconds. -/
def LimitsConfig.tsMinUs (l : LimitsConfig) : Except Error ℕ := parseRfc3339Utc l.tsMin

/-! ## Validation -/

/-- A control character: Unicode category `Cc`. -/
def isControl (c : Char) : Bool := c.toNat < 32 || (127 ≤ c.toNat && c.toNat < 160)

/-- Series names are path components under `series/` and carry a `u16` length. -/
def checkSeriesName (name : String) : Except Error Unit :=
  let bad (why : String) : Except Error Unit := .error (.config (.seriesName name why))
  if name.toList = [] then
    bad "must not be empty"
  else if u16Max < (utf8 name).length then
    bad "must be under 64 KiB; the frame encodes it with a u16 length"
  else if name = "." ∨ name = ".." ∨ '/' ∈ name.toList ∨ '\\' ∈ name.toList then
    bad "must not be a path component like '.', '..' or contain a separator"
  else if name.toList.any isControl then
    bad "must not contain control characters"
  else
    .ok ()

/-- The key list of one series; `seen` are the key names already met. -/
def checkKeys (series : String) (seen : List String) : List KeyDef → Except Error Unit
  | [] => .ok ()
  | k :: ks =>
    if k.name.toList = [] then
      .error (.config (.emptyKey series))
    else if k.name ∈ reservedKeyNames then
      .error (.config (.reservedKey series k.name))
    else if k.name ∈ seen then
      .error (.config (.duplicateKey series k.name))
    else
      checkKeys series (k.name :: seen) ks

/-- The series list; `seen` and `folded` are the names already met, as they are and case-folded. -/
def checkSeries (lower : String → String) (seen folded : List String) :
    List SeriesConfig → Except Error Unit
  | [] => .ok ()
  | s :: rest => do
    checkSeriesName s.name
    if s.name ∈ seen then
      .error (.config (.duplicateSeries s.name))
    else if lower s.name ∈ folded then
      .error (.config (.caseCollision s.name))
    else do
      checkKeys s.name [] s.keys
      checkSeries lower (s.name :: seen) (lower s.name :: folded) rest

/-- Numeric tunables, each against the invariant that makes it usable. -/
def checkBounds (c : Config) : Except Error Unit :=
  let bad (msg : String) : Except Error Unit := .error (.config (.text msg))
  let smallestSegment := c.limits.maxRecordBytes + UInt64.ofNat segmentHeaderBytes
  let smallestUseful := c.limits.maxRecordBytes + UInt64.ofNat batchHeaderBytes
  if c.limits.maxRecordBytes = 0 then
    bad "limits.max_record_bytes must be greater than 0"
  else if c.flush.mergeFanIn < 2 then
    bad "flush.merge_fan_in must be at least 2, or a merge cannot make progress"
  else if c.flush.memoryBudgetBytes = 0 then
    bad "flush.memory_budget_bytes must be greater than 0"
  else if c.flush.rowGroupRows = 0 then
    bad "flush.row_group_rows must be greater than 0"
  else if maxFlushIntervalMs < c.flush.intervalMs then
    .error (.config (.intervalOutOfRange c.flush.intervalMs))
  else if c.wal.fsyncIntervalMs = 0 then
    bad ("wal.fsync_interval_ms must be greater than 0; it is the group-commit window, " ++
      "and 0 would mean the committer never parks")
  else if c.wal.fsyncBytes = 0 then
    bad ("wal.fsync_bytes must be greater than 0; 0 leaves the committer's wait " ++
      "predicate permanently false, which spins a core")
  else if c.wal.segmentMaxBytes < smallestSegment then
    .error (.config (.segmentTooSmall c.wal.segmentMaxBytes c.limits.maxRecordBytes))
  else if c.server.maxBatchBytes ≤ 0 then
    .error (.config (.batchNotPositive c.server.maxBatchBytes))
  else if c.server.maxBatchBytes.toUInt64 < smallestUseful then
    .error (.config (.batchTooSmall c.server.maxBatchBytes c.limits.maxRecordBytes))
  else if c.flush.compression ∉ supportedCompression then
    .error (.config (.compression c.flush.compression))
  else
    .ok ()

/-- Check every invariant the engine assumes. -/
def Config.validate (lower : String → String) (c : Config) : Except Error Unit := do
  let _ ← c.limits.tsMinUs
  checkBounds c
  checkSeries lower [] [] c.series

/-- A series resolved once for the ingest path; it pins its `epoch`. -/
structure SeriesHandle where
  name : String
  keys : List KeyDef
  epoch : UInt32
  deriving DecidableEq, Repr

/-- Resolve a declared series at an epoch. -/
def SeriesHandle.new (s : SeriesConfig) (epoch : UInt32) : Except Error SeriesHandle := do
  checkSeriesName s.name
  return ⟨s.name, s.keys, epoch⟩

/-! ## What a validated config promises -/

private theorem checkKeys_eq_ok {series : String} {seen : List String} {keys : List KeyDef}
    (h : checkKeys series seen keys = .ok ()) :
    (keys.map KeyDef.name).Nodup ∧ ∀ k ∈ keys, k.name ∉ seen := by
  induction keys generalizing seen with
  | nil => simp
  | cons k ks ih =>
    rw [checkKeys] at h
    split_ifs at h with hempty hres hseen
    obtain ⟨hnodup, hfresh⟩ := ih h
    refine ⟨?_, fun k' hk' ↦ ?_⟩
    · rw [List.map_cons, List.nodup_cons]
      refine ⟨fun hmem ↦ ?_, hnodup⟩
      obtain ⟨k', hk', hname⟩ := List.mem_map.1 hmem
      exact hfresh k' hk' (by rw [hname]; exact List.mem_cons_self)
    · rcases List.mem_cons.1 hk' with rfl | hk'
      · exact hseen
      · exact fun hmem ↦ hfresh k' hk' (List.mem_cons_of_mem _ hmem)

/-- What `checkSeries` establishes of the series it accepts. -/
structure SeriesChecked (series : List SeriesConfig) : Prop where
  names : (series.map SeriesConfig.name).Nodup
  name_ok : ∀ s ∈ series, checkSeriesName s.name = .ok ()
  keys : ∀ s ∈ series, (s.keys.map KeyDef.name).Nodup

private theorem checkSeries_eq_ok {lower : String → String} {seen folded : List String}
    {series : List SeriesConfig} (h : checkSeries lower seen folded series = .ok ()) :
    SeriesChecked series ∧ ∀ s ∈ series, s.name ∉ seen := by
  induction series generalizing seen folded with
  | nil => exact ⟨⟨by simp, by simp, by simp⟩, by simp⟩
  | cons s rest ih =>
    rw [checkSeries, Except.bind_eq_ok] at h
    obtain ⟨⟨⟩, hname, h⟩ := h
    split_ifs at h with hseen hfold
    rw [Except.bind_eq_ok] at h
    obtain ⟨⟨⟩, hkeys, h⟩ := h
    obtain ⟨hrest, hfresh⟩ := ih h
    refine ⟨⟨?_, ?_, ?_⟩, fun s' hs' ↦ ?_⟩
    · rw [List.map_cons, List.nodup_cons]
      refine ⟨fun hmem ↦ ?_, hrest.names⟩
      obtain ⟨s', hs', hname'⟩ := List.mem_map.1 hmem
      exact hfresh s' hs' (by rw [hname']; exact List.mem_cons_self)
    · exact List.forall_mem_cons.2 ⟨hname, hrest.name_ok⟩
    · exact List.forall_mem_cons.2 ⟨(checkKeys_eq_ok hkeys).1, hrest.keys⟩
    · rcases List.mem_cons.1 hs' with rfl | hs'
      · exact hseen
      · exact fun hmem ↦ hfresh s' hs' (List.mem_cons_of_mem _ hmem)

theorem ite_error_eq_ok {ε α : Type} {p : Prop} [Decidable p] {e : ε} {x : Except ε α}
    {a : α} : (if p then .error e else x) = .ok a ↔ ¬ p ∧ x = .ok a := by
  split_ifs with h <;> simp [h]

theorem Config.validate_compression {lower : String → String} {c : Config}
    (h : c.validate lower = .ok ()) : c.flush.compression ∈ supportedCompression := by
  simp only [Config.validate, Except.bind_eq_ok] at h
  obtain ⟨_, -, _, hbounds, -⟩ := h
  simp only [checkBounds, ite_error_eq_ok] at hbounds
  exact not_not.1 hbounds.2.2.2.2.2.2.2.2.2.2.1

theorem Config.validate_series {lower : String → String} {c : Config}
    (h : c.validate lower = .ok ()) : SeriesChecked c.series := by
  simp only [Config.validate, Except.bind_eq_ok] at h
  obtain ⟨_, -, _, -, h⟩ := h
  exact (checkSeries_eq_ok h).1

end Orc
