import Orc.Disk
import Orc.Flush.Bounded
import Orc.Names
import Orc.Order.Classes

/-!
# One file per hour

The records of a group come out of the merge in the order of their timestamps, so those of one hour
come together. They are streamed into a Parquet file under `tmp/<series>/<hour>/`, one row group at
a time, and the file is closed and synced when the hour changes.

A file that fails half way keeps what was written to it, without a footer. Which of its bytes
arrived is not represented: only files with a footer are ever read or published.

## What is staged

`Partition.At` says what the records seen so far have left in `tmp/`: a complete file for each hour
that is over, and for the last hour a file whose rows are in its row groups and in the builder.
-/

namespace Orc

open Bytes Fault Order

/-- What a flush reports about a file. -/
structure WrittenFile where
  series : String
  epoch : UInt32
  hour : String
  rows : ℕ
  deriving DecidableEq, Repr

/-- What the files of one group share. -/
structure Target where
  series : String
  epoch : UInt32
  keys : List KeyDef
  /-- The file name, from the range of segments and the epoch. -/
  name : String
  compression : String
  rowGroupRows : ℕ
  deriving DecidableEq

/-- A file of the group, by a timestamp of its hour; `tmp/` mirrors `series/`. -/
def Target.path (t : Target) (ts : ℕ) : Path := [t.series, hourPartition ts, t.name]

/-- Change a Parquet file, if it is there. -/
def updateParquet (path : Path) (g : Parquet → Parquet) (files : Std.ExtTreeMap Path Parquet) :
    Std.ExtTreeMap Path Parquet :=
  match files[path]? with
  | none => files
  | some f => files.insert path (g f)

/-- Change a staged file. -/
def Disk.onStaged (path : Path) (g : Parquet → Parquet) (d : Disk) : Disk :=
  { d with tmp := updateParquet path g d.tmp }

/-! ## The writer of a file -/

/-- A Parquet file streamed one row group at a time. -/
structure PartitionWriter where
  path : Path
  keyDefs : List KeyDef
  /-- The row groups that the writer of the crate has been given. -/
  written : List Columns := []
  builder : Columns
  groupRows : ℕ
  rows : ℕ := 0
  deriving DecidableEq

namespace PartitionWriter

def create (t : Target) (path : Path) : Io PartitionWriter :=
  if t.compression ∉ supportedCompression then
    Prog.fail (.config (.compression t.compression))
  else do
    Io.step .stageCreate fun d ↦
      { d with tmp := d.tmp.insert path ⟨t.series, t.epoch, t.keys, [], false⟩ }
    -- the crate writes the magic of the format
    Io.crate (.new t.keys) id
    return ⟨path, t.keys, [], RowBuilder.new t.series t.keys, max t.rowGroupRows 1, 0⟩

def writeGroup (w : PartitionWriter) : Io PartitionWriter :=
  if w.builder.rows = 0 then
    return w
  else do
    Io.crate (.nextRowGroup w.keyDefs w.written) id
    Io.crate (.writeColumns w.keyDefs w.written w.builder) id
    Io.crate (.closeRowGroup w.keyDefs w.written w.builder)
      (Disk.onStaged w.path fun f ↦ { f with groups := f.groups ++ [w.builder] })
    return { w with
      written := w.written ++ [w.builder]
      builder := RowBuilder.new w.builder.series w.keyDefs }

/-- Append one row; a full row group is written out immediately. -/
def append (w : PartitionWriter) (r : RecordRef) : Io PartitionWriter :=
  match RowBuilder.append r.ts r.id r.keys r.extra r.data w.builder with
  | .error e _ => Prog.fail e
  | .ok () builder =>
    if w.groupRows ≤ builder.rows then
      writeGroup { w with builder, rows := w.rows + 1 }
    else
      return { w with builder, rows := w.rows + 1 }

/-- Write the last row group, close and fsync; returns the row count. -/
def finish (w : PartitionWriter) : Io ℕ := do
  let w ← w.writeGroup
  Io.crate (.close w.keyDefs w.written) (Disk.onStaged w.path fun f ↦ { f with complete := true })
  Io.touch .stageSync
  return w.rows

end PartitionWriter

/-! ## The sink of the merge -/

/-- The file being written, with its hour, and the files staged. -/
structure Partition where
  current : Option (ℕ × String × PartitionWriter) := none
  staged : List (WrittenFile × Path) := []
  deriving DecidableEq

namespace Partition

/-- Finish the file being written, if there is one. -/
def close (t : Target) (s : Partition) : Io Partition :=
  match s.current with
  | none => return s
  | some (_, hour, w) => do
    let rows ← w.finish
    return ⟨none, s.staged ++ [(⟨t.series, t.epoch, hour, rows⟩, w.path)]⟩

/-- Have the file of a timestamp's hour open. -/
def turn (t : Target) (s : Partition) (ts : ℕ) : Io Partition :=
  if s.current.any fun c ↦ c.1 == ts / usPerHour then
    return s
  else do
    let s ← s.close t
    Io.touch .stageMkdir
    let w ← PartitionWriter.create t (t.path ts)
    return { s with current := some (ts / usPerHour, hourPartition ts, w) }

/-- Write one record. It was verified when its segment was read, so its checksum is not looked
at. -/
def emit (t : Target) (s : Partition) (h : Head) : Io Partition := do
  let s ← s.turn t h.ts.toNat
  match decodeVerified h.frame t.keys.length with
  | .error _ => Prog.fail (.io .invalidData)
  | .ok (record, _) =>
    match s.current with
    | none => return s
    | some (hour, name, w) => do
      let w ← w.append record
      return { s with current := some (hour, name, w) }

end Partition

/-! ## Files -/

theorem getElem?_updateParquet (path p : Path) (g : Parquet → Parquet)
    (files : Std.ExtTreeMap Path Parquet) :
    (updateParquet path g files)[p]? = if path = p then files[p]?.map g else files[p]? := by
  unfold updateParquet
  split_ifs with h
  · subst h
    cases hf : files[path]? with
    | none => exact hf
    | some f => exact Std.ExtTreeMap.getElem?_insert_self
  · cases hf : files[path]? with
    | none => rfl
    | some f =>
      exact getElem?_insert_of_ne h

/-! ## What the crate is given -/

section Calls

variable (series : String) (keys : List KeyDef) (size : ℕ) (rows : List FileRow)

/-- The row group that begins after `k` full ones. -/
def rowGroup (k : ℕ) : Columns := .of series keys ((rows.drop (k * size)).take size)

/-- The first `k` row groups. -/
def rowGroups (k : ℕ) : List Columns := (List.range k).map (rowGroup series keys size rows)

/-- How many row groups there are, the last of them perhaps smaller. -/
def groupCount : ℕ := (rows.length + size - 1) / size

/-- The calls for one row group. -/
def groupCalls (k : ℕ) : List CrateCall :=
  [.nextRowGroup keys (rowGroups series keys size rows k),
    .writeColumns keys (rowGroups series keys size rows k) (rowGroup series keys size rows k),
    .closeRowGroup keys (rowGroups series keys size rows k) (rowGroup series keys size rows k)]

/-- The calls for a whole file. -/
def fileCalls : List CrateCall :=
  .new keys :: (List.range (groupCount size rows)).flatMap (groupCalls series keys size rows) ++
    [.close keys (rowGroups series keys size rows (groupCount size rows))]

variable {series keys size rows}

theorem lt_groupCount_iff (hsize : 0 < size) {k : ℕ} :
    k < groupCount size rows ↔ k * size < rows.length := by
  rw [groupCount, Nat.lt_iff_add_one_le, Nat.le_div_iff_mul_le hsize, Nat.add_one_mul]
  omega

theorem groupCount_le_iff (hsize : 0 < size) {k : ℕ} :
    groupCount size rows ≤ k ↔ rows.length ≤ k * size := by
  rw [← Nat.not_lt, lt_groupCount_iff hsize, Nat.not_lt]

theorem rowGroups_succ (k : ℕ) : rowGroups series keys size rows (k + 1) =
    rowGroups series keys size rows k ++ [rowGroup series keys size rows k] := by
  rw [rowGroups, List.range_succ, List.map_append]
  rfl

theorem rowGroup_append {more : List FileRow} {k : ℕ} (h : (k + 1) * size ≤ rows.length) :
    rowGroup series keys size (rows ++ more) k = rowGroup series keys size rows k := by
  rw [Nat.add_one_mul] at h
  rw [rowGroup, rowGroup, List.drop_append_of_le_length (by omega),
    List.take_append_of_le_length (by rw [List.length_drop]; omega)]

theorem rowGroups_append {more : List FileRow} {k : ℕ} (h : k * size ≤ rows.length) :
    rowGroups series keys size (rows ++ more) k = rowGroups series keys size rows k := by
  refine List.map_congr_left fun i hi ↦ rowGroup_append ?_
  exact (Nat.mul_le_mul_right size (List.mem_range.1 hi)).trans h

private theorem groupCalls_append (more : List FileRow) {k : ℕ} (h : (k + 1) * size ≤ rows.length) :
    groupCalls series keys size (rows ++ more) k = groupCalls series keys size rows k := by
  have hbefore : k * size ≤ rows.length := (Nat.mul_le_mul_right size (Nat.le_succ k)).trans h
  rw [groupCalls, groupCalls, rowGroups_append hbefore, rowGroup_append h]

theorem groupCalls_subset {k : ℕ} (h : k < groupCount size rows) :
    ∀ call ∈ groupCalls series keys size rows k, call ∈ fileCalls series keys size rows := by
  intro call hcall
  refine List.mem_append_left _ (List.mem_cons_of_mem _ ?_)
  exact List.mem_flatMap.2 ⟨k, List.mem_range.2 h, hcall⟩

theorem forall_mem_fileCalls {P : CrateCall → Prop} :
    (∀ call ∈ fileCalls series keys size rows, P call) ↔ P (.new keys) ∧
      (∀ k < groupCount size rows, ∀ call ∈ groupCalls series keys size rows k, P call) ∧
      P (.close keys (rowGroups series keys size rows (groupCount size rows))) := by
  rw [fileCalls, List.forall_mem_append, List.forall_mem_cons, List.forall_mem_singleton, and_assoc]
  simp only [List.forall_mem_flatMap, List.mem_range]

private theorem flatMap_rowGroups (h : ∀ r ∈ rows, KeysFit keys r.keys) (k : ℕ) :
    (rowGroups series keys size rows k).flatMap Columns.toRows = rows.take (k * size) := by
  induction k with
  | zero => simp [rowGroups]
  | succ k ih =>
    have hgroup : (rowGroup series keys size rows k).toRows = (rows.drop (k * size)).take size :=
      Columns.toRows_of fun r hr ↦ h r (List.mem_of_mem_drop (List.mem_of_mem_take hr))
    rw [rowGroups_succ, List.flatMap_append, ih, List.flatMap_singleton, hgroup, Nat.add_one_mul,
      List.take_add]

end Calls

namespace Target

/-- The number of rows in a row group. -/
def groupRows (t : Target) : ℕ := max t.rowGroupRows 1

theorem groupRows_pos (t : Target) : 0 < t.groupRows :=
  Nat.lt_of_lt_of_le Nat.one_pos (Nat.le_max_right _ _)

/-- The first `k` row groups of a file. -/
def groups (t : Target) (rows : List FileRow) (k : ℕ) : List Columns :=
  rowGroups t.series t.keys t.groupRows rows k

/-- The calls for a file. -/
def calls (t : Target) (rows : List FileRow) : List CrateCall :=
  fileCalls t.series t.keys t.groupRows rows

/-- A file with the first `k` row groups of these rows. -/
structure IsFile (t : Target) (rows : List FileRow) (k : ℕ) (complete : Bool) (f : Parquet) :
    Prop where
  series : f.series = t.series
  epoch : f.epoch = t.epoch
  schema : f.schema = t.keys
  complete : f.complete = complete
  groups : f.groups = t.groups rows k

/-- The rows of a file are read back from its row groups. -/
theorem IsFile.rows_eq {t : Target} {rows : List FileRow} {complete : Bool} {f : Parquet}
    (h : t.IsFile rows (groupCount t.groupRows rows) complete f)
    (hfit : ∀ r ∈ rows, KeysFit t.keys r.keys) : f.rows = rows := by
  rw [Parquet.rows, h.groups, Target.groups, flatMap_rowGroups hfit]
  exact List.take_of_length_le ((groupCount_le_iff t.groupRows_pos).1 le_rfl)

end Target

theorem Target.path_inj {t : Target} {ts ts' : ℕ} :
    t.path ts = t.path ts' ↔ ts / usPerHour = ts' / usPerHour := by
  rw [← hourPartition_inj]
  simp [Target.path]

/-- A predicate that does not look at a staged file. -/
def IgnoresStaged (p : Path) (P : Disk → Prop) : Prop :=
  ∀ d f, P d → P { d with tmp := d.tmp.insert p f }

theorem IgnoresStaged.onStaged {p : Path} {P : Disk → Prop} (h : IgnoresStaged p P) {d : Disk}
    (hd : P d) (g : Parquet → Parquet) : P (d.onStaged p g) := by
  unfold Disk.onStaged updateParquet
  cases hf : d.tmp[p]? with
  | none => exact hd
  | some f => exact h d (g f) hd

/-! ## What the writer of a file does -/

/-- The rows given to a writer are in `k` row groups of its file and in its builder. -/
structure PartitionWriter.Holds (t : Target) (rows : List FileRow) (k : ℕ) (w : PartitionWriter)
    (d : Disk) : Prop where
  keyDefs : w.keyDefs = t.keys
  groupRows : w.groupRows = t.groupRows
  count : w.rows = rows.length
  written : w.written = t.groups rows k
  builder : w.builder = .of t.series t.keys (rows.drop (k * t.groupRows))
  file : ∃ f, d.tmp[w.path]? = some f ∧ t.IsFile rows k false f

/-- The rows have been streamed: the full row groups are written, and the crate has taken them. -/
def PartitionWriter.Streams (o : Oracle Op) (t : Target) (rows : List FileRow) (w : PartitionWriter)
    (d : Disk) : Prop :=
  ∃ k, k * t.groupRows ≤ rows.length ∧ rows.length < (k + 1) * t.groupRows ∧ w.Holds t rows k d ∧
    Done o (.parquet (.new t.keys)) ∧
    ∀ i < k, ∀ call ∈ groupCalls t.series t.keys t.groupRows rows i, Done o (.parquet call)

/-- There is a complete file with these rows, and the crate has taken all of it. -/
def Target.Staged (o : Oracle Op) (t : Target) (p : Path) (rows : List FileRow) (d : Disk) : Prop :=
  (∃ f, d.tmp[p]? = some f ∧ t.IsFile rows (groupCount t.groupRows rows) true f) ∧
    ∀ call ∈ t.calls rows, Done o (.parquet call)

/-- The errors for a file that the crate refuses. -/
def Target.Refusals (o : Oracle Op) (t : Target) (rows : List FileRow) (P : Disk → Prop)
    (E : Error → Disk → Prop) : Prop :=
  ∀ call ∈ t.calls rows, Failed o (.parquet call) → ∀ d, P d → E call.error d

theorem Target.Refusals.pre {o : Oracle Op} {t : Target} {rows : List FileRow} {P P' : Disk → Prop}
    {E : Error → Disk → Prop} (h : t.Refusals o rows P E) (hP : ∀ d, P' d → P d) :
    t.Refusals o rows P' E := fun call hcall hfailed d hd ↦ h call hcall hfailed d (hP d hd)

section Triples

variable {o : Oracle Op} {J P : Disk → Prop} {E : Error → Disk → Prop} {C : Disk → Prop}
  {t : Target}

namespace PartitionWriter

variable {w : PartitionWriter} {rows all : List FileRow}

theorem create_triple (hx : Exits Op.onFiles o J ioError E C) (hJ : ∀ d, P d → J d)
    (hcodec : t.compression ∉ supportedCompression →
      ∀ d, P d → E (.config (.compression t.compression)) d)
    {path : Path} (hP : IgnoresStaged path P) (hrefused : t.Refusals o all P E) :
    Triple o P (create t path) (fun w d ↦ P d ∧ w.path = path ∧ w.Streams o t [] d) E C := by
  rw [create]
  by_cases hunknown : t.compression ∉ supportedCompression
  · rw [if_pos hunknown]
    exact .fail (hcodec hunknown)
  rw [if_neg hunknown]
  refine .bind (Q := fun _ d ↦ P d ∧ d.tmp[path]? = some ⟨t.series, t.epoch, t.keys, [], false⟩)
    (Io.step_exits hx hJ ?_) fun _ ↦ .bind (Q := fun _ d ↦ (P d ∧
      d.tmp[path]? = some ⟨t.series, t.epoch, t.keys, [], false⟩) ∧ Done o (.parquet (.new t.keys)))
      (Io.crate_triple (fun d hd hdone ↦ ⟨hd, hdone⟩) ?_ fun d hd ↦ hx.crash d (hJ d hd.1)) fun _ ↦
      .ret ?_
  · exact fun d hd ↦ ⟨hP d _ hd, Std.ExtTreeMap.getElem?_insert_self⟩
  · exact fun hfailed d hd ↦ hrefused _ List.mem_cons_self hfailed d hd.1
  · rintro d ⟨⟨hd, hfile⟩, hdone⟩
    refine ⟨hd, rfl, 0, by simp, by simpa using t.groupRows_pos, ?_, hdone, nofun⟩
    exact ⟨rfl, rfl, rfl, rfl, by rw [List.drop_nil]; exact RowBuilder.new_eq _ _, _, hfile,
      rfl, rfl, rfl, rfl, rfl⟩

theorem writeGroup_triple (hx : Exits Op.onFiles o J ioError E C) (hJ : ∀ d, P d → J d)
    (hP : IgnoresStaged w.path P) (rows : List FileRow) {k : ℕ}
    (hle : k * t.groupRows ≤ rows.length)
    (hge : rows.length ≤ (k + 1) * t.groupRows)
    (hrefused : k < groupCount t.groupRows rows →
      ∀ call ∈ groupCalls t.series t.keys t.groupRows rows k,
      Failed o (.parquet call) → ∀ d, P d → E call.error d) :
    Triple o (fun d ↦ P d ∧ w.Holds t rows k d) w.writeGroup
      (fun w' d ↦ P d ∧ w'.path = w.path ∧ w'.Holds t rows (groupCount t.groupRows rows) d ∧
        ∀ i < groupCount t.groupRows rows, k ≤ i →
          ∀ call ∈ groupCalls t.series t.keys t.groupRows rows i, Done o (.parquet call)) E C := by
  have hsize := t.groupRows_pos
  refine .intro ?_
  rintro d₁ ⟨hd₁, hw⟩
  rw [writeGroup]
  have hempty : w.builder.rows = 0 ↔ rows.length ≤ k * t.groupRows := by
    rw [hw.builder]
    change (rows.drop (k * t.groupRows)).length = 0 ↔ _
    rw [List.length_drop, Nat.sub_eq_zero_iff_le]
  by_cases hnone : rows.length ≤ k * t.groupRows
  · have hcount : groupCount t.groupRows rows = k := by
      refine Nat.le_antisymm ((groupCount_le_iff hsize).2 hnone) (Nat.not_lt.1 fun hlt ↦ ?_)
      have hlast := (groupCount_le_iff hsize).1 (le_refl (groupCount t.groupRows rows))
      have := Nat.mul_lt_mul_of_pos_right hlt hsize
      omega
    rw [if_pos (hempty.2 hnone), hcount]
    refine .ret ?_
    rintro d rfl
    exact ⟨hd₁, rfl, hw, fun i hi hki ↦ absurd hi (Nat.not_lt.2 hki)⟩
  · have hk : k < groupCount t.groupRows rows := (lt_groupCount_iff hsize).2 (Nat.not_le.1 hnone)
    have hcount : groupCount t.groupRows rows = k + 1 :=
      Nat.le_antisymm ((groupCount_le_iff hsize).2 hge) hk
    have hgroup : w.builder = rowGroup t.series t.keys t.groupRows rows k := by
      rw [hw.builder, rowGroup, List.take_of_length_le]
      rw [List.length_drop, Nat.sub_le_iff_le_add']
      rwa [Nat.add_one_mul] at hge
    have hfails : ∀ call ∈ groupCalls t.series t.keys t.groupRows rows k,
        Failed o (.parquet call) → ∀ d, P d → E call.error d := hrefused hk
    simp only [groupCalls, List.forall_mem_cons] at hfails
    rw [if_neg (mt hempty.1 hnone), hw.keyDefs, hw.written, hgroup]
    -- the calls for the group, one after the other
    refine .bind (Q := fun _ d ↦ d = d₁ ∧ Done o _) (Io.crate_triple (fun d hd hdone ↦ ⟨hd, hdone⟩)
        (fun hf d hd ↦ hfails.1 hf d (hd ▸ hd₁)) fun d hd ↦ hx.crash d (hJ d (hd ▸ hd₁))) fun _ ↦
      .bind (Q := fun _ d ↦ (d = d₁ ∧ Done o _) ∧ Done o _)
        (Io.crate_triple (fun d hd hdone ↦ ⟨hd, hdone⟩)
          (fun hf d hd ↦ hfails.2.1 hf d (hd.1 ▸ hd₁)) fun d hd ↦ hx.crash d (hJ d (hd.1 ▸ hd₁)))
        fun _ ↦ .bind (Q := fun _ d ↦ (P d ∧ ∃ f, d.tmp[w.path]? = some f ∧
            t.IsFile rows (k + 1) false f) ∧
            ∀ call ∈ groupCalls t.series t.keys t.groupRows rows k, Done o (.parquet call))
          (Io.crate_triple ?_ (fun hf d hd ↦ hfails.2.2.1 hf d (hd.1.1 ▸ hd₁))
            fun d hd ↦ hx.crash d (hJ d (hd.1.1 ▸ hd₁))) fun _ ↦ .ret ?_
    · rintro d ⟨⟨rfl, hnext⟩, hcolumns⟩ hclose
      obtain ⟨f, hf, hfile⟩ := hw.file
      refine ⟨⟨hP.onStaged hd₁ _,
        { f with groups := f.groups ++ [rowGroup t.series t.keys t.groupRows rows k] }, ?_,
        hfile.series, hfile.epoch, hfile.schema, hfile.complete, ?_⟩, ?_⟩
      · rw [Disk.onStaged, getElem?_updateParquet, if_pos rfl, hf]
        rfl
      · rw [Target.groups, rowGroups_succ, hfile.groups]
        rfl
      · simp only [groupCalls, List.forall_mem_cons]
        exact ⟨hnext, hcolumns, hclose, nofun⟩
    · rintro d ⟨⟨hd, hfile⟩, hdone⟩
      rw [hcount]
      refine ⟨hd, rfl, ⟨rfl, hw.groupRows, hw.count, ?_, ?_, hfile⟩, fun i hi hki ↦ ?_⟩
      · exact (rowGroups_succ k).symm
      · rw [List.drop_eq_nil_of_le hge]
        exact RowBuilder.new_eq _ _
      · obtain rfl : i = k := Nat.le_antisymm (Nat.le_of_lt_succ hi) hki
        exact hdone

private theorem Holds.push {k : ℕ} {d : Disk} (h : w.Holds t rows k d)
    (hle : k * t.groupRows ≤ rows.length) (row : FileRow) :
    Holds t (rows ++ [row]) k { w with
      builder := .of t.series t.keys (rows.drop (k * t.groupRows) ++ [row])
      rows := w.rows + 1 } d := by
  obtain ⟨f, hf, hfile⟩ := h.file
  have hgroups : t.groups (rows ++ [row]) k = t.groups rows k := rowGroups_append hle
  refine ⟨h.keyDefs, h.groupRows, ?_, ?_, ?_, f, hf, hfile.series, hfile.epoch, hfile.schema,
    hfile.complete, ?_⟩
  · rw [List.length_append, ← h.count, List.length_singleton]
  · rw [hgroups, ← h.written]
  · rw [List.drop_append_of_le_length hle]
  · rw [hgroups, ← hfile.groups]

theorem append_triple (hx : Exits Op.onFiles o J ioError E C) (hJ : ∀ d, P d → J d)
    (hP : IgnoresStaged w.path P) {r : RecordRef} (hfit : KeysFit t.keys r.keys)
    (hlarge : 2 ^ 63 ≤ r.ts.toNat → ∀ d, P d → E (.config (.tsTooLarge r.ts)) d)
    (hall : rows ++ [r.fileRow] <+: all) (hrefused : t.Refusals o all P E) :
    Triple o (fun d ↦ P d ∧ w.Streams o t rows d) (w.append r)
      (fun w' d ↦ P d ∧ w'.path = w.path ∧ w'.Streams o t (rows ++ [r.fileRow]) d ∧
        r.ts.toNat < 2 ^ 63) E C := by
  have hsize := t.groupRows_pos
  refine .intro ?_
  rintro d₁ ⟨hd₁, k, hle, hlt, hw, hnew, hdone⟩
  rw [append, hw.builder, RowBuilder.append_of hfit]
  by_cases hts : 2 ^ 63 ≤ r.ts.toNat
  · rw [if_pos hts]
    exact .fail fun d hd ↦ hd ▸ hlarge hts d₁ hd₁
  rw [if_neg hts]
  dsimp only
  have hlen : (rows ++ [r.fileRow]).length = rows.length + 1 := List.length_append
  have hholds := hw.push hle r.fileRow
  have hdone' : ∀ i < k, ∀ call ∈ groupCalls t.series t.keys t.groupRows (rows ++ [r.fileRow]) i,
      Done o (.parquet call) := fun i hi ↦ by
    rw [groupCalls_append _ ((Nat.mul_le_mul_right _ hi).trans hle)]
    exact hdone i hi
  generalize hw' : ({ w with
    builder := .of t.series t.keys (rows.drop (k * t.groupRows) ++ [r.fileRow])
    rows := w.rows + 1 } : PartitionWriter) = w' at hholds ⊢
  have hpath : w'.path = w.path := by rw [← hw']
  have hrows : w.groupRows ≤ (Columns.of t.series t.keys
      (rows.drop (k * t.groupRows) ++ [r.fileRow])).rows ↔
      (k + 1) * t.groupRows ≤ rows.length + 1 := by
    rw [hw.groupRows]
    change _ ≤ (rows.drop (k * t.groupRows) ++ [r.fileRow]).length ↔ _
    rw [List.length_append, List.length_drop, List.length_singleton, Nat.add_one_mul]
    omega
  by_cases hfull : (k + 1) * t.groupRows ≤ rows.length + 1
  · have hcount : groupCount t.groupRows (rows ++ [r.fileRow]) = k + 1 := by
      refine Nat.le_antisymm ((groupCount_le_iff hsize).2 (by rw [hlen]; exact hlt)) ?_
      exact (lt_groupCount_iff hsize).2 (by rw [hlen]; omega)
    rw [if_pos (hrows.2 hfull), ← hpath]
    rw [← hpath] at hP
    refine ((writeGroup_triple (t := t) hx hJ hP (rows ++ [r.fileRow]) (k := k)
      (by rw [hlen]; omega) (by rw [hlen]; exact hlt) ?_).pre ?_).post ?_
    · intro _ call hcall
      obtain ⟨more, rfl⟩ := hall
      rw [← groupCalls_append more (by rw [hlen]; exact hfull)] at hcall
      refine hrefused call (groupCalls_subset ((lt_groupCount_iff hsize).2 ?_) call hcall)
      rw [List.length_append, hlen]
      omega
    · rintro d rfl
      exact ⟨hd₁, hholds⟩
    · rintro w'' d ⟨hd, hpath', hholds', hlast⟩
      rw [hcount] at hholds' hlast
      refine ⟨hd, hpath', ⟨k + 1, by rw [hlen]; exact hfull, ?_, hholds', hnew, fun i hi ↦ ?_⟩,
        not_le.1 hts⟩
      · rw [hlen, Nat.add_one_mul (k + 1)]
        omega
      · rcases Nat.lt_succ_iff_lt_or_eq.1 hi with hi | rfl
        · exact hdone' i hi
        · exact hlast i (Nat.lt_succ_self i) le_rfl
  · rw [if_neg (mt hrows.1 hfull)]
    refine .ret ?_
    rintro d rfl
    refine ⟨hd₁, hpath, ⟨k, ?_, ?_, hholds, hnew, hdone'⟩, not_le.1 hts⟩
    · rw [hlen]
      omega
    · rw [hlen]
      omega

theorem finish_triple (hx : Exits Op.onFiles o J ioError E C) (hJ : ∀ d, P d → J d)
    (hP : IgnoresStaged w.path P) (hrefused : t.Refusals o rows P E) :
    Triple o (fun d ↦ P d ∧ w.Streams o t rows d) w.finish
      (fun n d ↦ P d ∧ n = rows.length ∧ t.Staged o w.path rows d) E C := by
  refine .intro ?_
  rintro d₁ ⟨hd₁, k, hle, hlt, hw, hnew, hdone⟩
  refine .bind ((writeGroup_triple hx hJ hP rows hle hlt.le fun hk call hcall ↦
    hrefused call (groupCalls_subset hk call hcall)).pre ?_) fun w' ↦ .intro ?_
  · rintro d rfl
    exact ⟨hd₁, hw⟩
  rintro d₂ ⟨hd₂, hpath, hholds, hlast⟩
  refine .bind (Q := fun _ d ↦ P d ∧ t.Staged o w.path rows d) (Io.crate_triple ?_ ?_ ?_) fun _ ↦
    .bind (Io.touch_exits hx fun d hd ↦ hJ d hd.1) fun _ ↦ .ret fun d hd ↦
      ⟨hd.1, hholds.count, hd.2⟩
  · rintro d rfl hclose
    rw [hholds.keyDefs, hholds.written] at hclose
    obtain ⟨f, hf, hfile⟩ := hholds.file
    rw [← hpath] at hP ⊢
    refine ⟨hP.onStaged hd₂ _, ⟨{ f with complete := true }, ?_, hfile.series, hfile.epoch,
      hfile.schema, rfl, hfile.groups⟩, forall_mem_fileCalls.2 ⟨hnew, fun i hi ↦ ?_, hclose⟩⟩
    · rw [Disk.onStaged, getElem?_updateParquet, if_pos rfl, hf]
      rfl
    · by_cases hik : i < k
      · exact hdone i hik
      · exact hlast i hi (Nat.not_lt.1 hik)
  · rintro hfailed d rfl
    rw [hholds.keyDefs, hholds.written] at hfailed ⊢
    exact hrefused _ (List.mem_append_right _ (List.mem_singleton_self _)) hfailed d hd₂
  · rintro d rfl
    exact hx.crash d (hJ d hd₂)

end PartitionWriter

end Triples

/-! ## What the sink of the merge does -/

/-- The hour of a record. -/
def hourOf (h : Head) : ℕ := h.ts.toNat / usPerHour

/-- The timestamp a file's hour is taken from. -/
def firstTs (c : List Head) : ℕ := c.head?.elim 0 fun h ↦ h.ts.toNat

namespace Target

/-- The row a record becomes. -/
def rowOf (t : Target) (h : Head) : FileRow :=
  match decodeVerified h.frame t.keys.length with
  | .ok (r, _) => r.fileRow
  | .error _ => ⟨0, "", [], [], ""⟩

/-- A record that decodes and fits the schema. -/
def Writable (t : Target) (h : Head) : Prop :=
  ∃ r n, decodeVerified h.frame t.keys.length = .ok (r, n) ∧ KeysFit t.keys r.keys ∧ r.ts = h.ts

/-- What is reported for the file of an hour's records. -/
def written (t : Target) (c : List Head) : WrittenFile × Path :=
  (⟨t.series, t.epoch, hourPartition (firstTs c), c.length⟩, t.path (firstTs c))

/-- There is a complete file for each of these hours. -/
def Closed (o : Oracle Op) (t : Target) (closed : List (List Head)) (d : Disk) : Prop :=
  ∀ c ∈ closed, t.Staged o (t.path (firstTs c)) (c.map t.rowOf) d

/-- A predicate that does not look at the staged files of the group. -/
def Ignored (t : Target) (P : Disk → Prop) : Prop := ∀ ts, IgnoresStaged (t.path ts) P

/-- Files that are closed stay so when another is written. -/
theorem Closed.insert {o : Oracle Op} {t : Target} {closed : List (List Head)} {d : Disk}
    (h : t.Closed o closed d) {p : Path} (hne : ∀ c ∈ closed, p ≠ t.path (firstTs c))
    (f : Parquet) :
    t.Closed o closed { d with tmp := d.tmp.insert p f } := by
  intro c hc
  obtain ⟨⟨g, hg, hfile⟩, hdone⟩ := h c hc
  exact ⟨⟨g, (getElem?_insert_of_ne (hne c hc)).trans hg, hfile⟩, hdone⟩

theorem Ignored.and_closed {o : Oracle Op} {t : Target} {P : Disk → Prop} (h : t.Ignored P)
    {closed : List (List Head)} {ts : ℕ}
    (hne : ∀ c ∈ closed, firstTs c / usPerHour ≠ ts / usPerHour) :
    IgnoresStaged (t.path ts) fun d ↦ P d ∧ t.Closed o closed d := fun d f ⟨hd, hclosed⟩ ↦
  ⟨h ts d f hd, hclosed.insert (fun c hc heq ↦ hne c hc (path_inj.1 heq).symm) f⟩

end Target

namespace Partition

/-- A file is open for the hour of `ts` and holds the records `cur`, and the hours `closed` are
over. The files `before` are those of other groups. -/
structure Writing (o : Oracle Op) (t : Target) (before : List (WrittenFile × Path))
    (closed : List (List Head)) (cur : List Head) (ts : ℕ) (w : PartitionWriter) (s : Partition)
    (d : Disk) : Prop where
  state : s = ⟨some (ts / usPerHour, hourPartition ts, w), before ++ closed.map t.written⟩
  path : w.path = t.path ts
  streams : w.Streams o t (cur.map t.rowOf) d
  distinct : ∀ c ∈ closed, firstTs c / usPerHour ≠ ts / usPerHour
  closed : t.Closed o closed d

/-- What the records seen so far have left: nothing, or an open file for the last hour and complete
files for those before it. -/
def At (o : Oracle Op) (t : Target) (before : List (WrittenFile × Path)) (seen : List Head)
    (s : Partition) (d : Disk) : Prop :=
  (seen = [] ∧ s = ⟨none, before⟩) ∨ ∃ closed cur w, cut hourOf seen = closed ++ [cur] ∧
    Writing o t before closed cur (firstTs cur) w s d

theorem Writing.congr {o : Oracle Op} {t : Target} {before : List (WrittenFile × Path)}
    {closed : List (List Head)} {cur : List Head} {ts ts' : ℕ} {w : PartitionWriter} {s : Partition}
    {d : Disk} (h : Writing o t before closed cur ts w s d)
    (hts : ts / usPerHour = ts' / usPerHour) : Writing o t before closed cur ts' w s d := by
  refine ⟨?_, ?_, h.streams, hts ▸ h.distinct, h.closed⟩
  · rw [h.state, hts, hourPartition_inj.2 hts]
  · rw [h.path, Target.path_inj.2 hts]

/-- The open file is none of the closed ones. -/
private theorem Writing.ignored {o : Oracle Op} {t : Target} {before : List (WrittenFile × Path)}
    {closed : List (List Head)} {cur : List Head} {ts : ℕ} {w : PartitionWriter} {s : Partition}
    {d : Disk} {P : Disk → Prop} (h : Writing o t before closed cur ts w s d) (hP : t.Ignored P) :
    IgnoresStaged w.path fun d ↦ P d ∧ t.Closed o closed d := by
  rw [h.path]
  exact hP.and_closed h.distinct

/-- Only the staged files matter. -/
theorem At.of_tmp {o : Oracle Op} {t : Target} {before : List (WrittenFile × Path)}
    {seen : List Head} {s : Partition} {d d' : Disk} (h : At o t before seen s d)
    (htmp : d'.tmp = d.tmp) : At o t before seen s d' := by
  refine h.imp_right ?_
  rintro ⟨closed, cur, w, hcut, hw⟩
  obtain ⟨k, hle, hlt, hholds, hdone⟩ := hw.streams
  refine ⟨closed, cur, w, hcut, hw.state, hw.path, ⟨k, hle, hlt, ⟨hholds.keyDefs, hholds.groupRows,
    hholds.count, hholds.written, hholds.builder, ?_⟩, hdone⟩, hw.distinct, ?_⟩
  · rw [htmp]
    exact hholds.file
  · intro c hc
    rw [Target.Staged, htmp]
    exact hw.closed c hc

theorem hourOf_of_mem_cut {seen c : List Head} (hc : c ∈ cut hourOf seen) :
    c ≠ [] ∧ ∀ h ∈ c, hourOf h = firstTs c / usPerHour := by
  obtain ⟨a, as, rfl, has⟩ := class_eq_of_mem_cut hc
  exact ⟨List.cons_ne_nil a as, List.forall_mem_cons.2 ⟨rfl, has⟩⟩

section Cut

variable {seen : List Head} {closed : List (List Head)} {cur : List Head} {h : Head}

theorem mem_cut_concat (hcut : cut hourOf seen = closed ++ [cur]) : cur ∈ cut hourOf seen := by
  rw [hcut]
  exact List.mem_append_right closed (List.mem_singleton_self cur)

private theorem hours_ne (hsorted : seen.Pairwise fun a b ↦ hourOf a ≤ hourOf b)
    (hcut : cut hourOf seen = closed ++ [cur]) :
    ∀ c ∈ closed, firstTs c / usPerHour ≠ firstTs cur / usPerHour := by
  intro c hc
  have hlt := (List.pairwise_append.1 (hcut ▸ pairwise_cut hsorted)).2.2 c hc cur (by simp)
  obtain ⟨hne, hhour⟩ := hourOf_of_mem_cut (hcut ▸ List.mem_append_left [cur] hc)
  obtain ⟨hne', hhour'⟩ := hourOf_of_mem_cut (mem_cut_concat hcut)
  obtain ⟨a, ha⟩ := List.exists_mem_of_ne_nil c hne
  obtain ⟨b, hb⟩ := List.exists_mem_of_ne_nil cur hne'
  rw [← hhour a ha, ← hhour' b hb]
  exact (hlt a ha b hb).ne

theorem getLast?_hour (hcut : cut hourOf seen = closed ++ [cur]) :
    cur.getLast?.map hourOf = some (firstTs cur / usPerHour) := by
  obtain ⟨hne, hhour⟩ := hourOf_of_mem_cut (mem_cut_concat hcut)
  rw [List.getLast?_eq_some_getLast hne, Option.map_some, hhour _ (List.getLast_mem hne)]

private theorem cut_same_hour (hcut : cut hourOf seen = closed ++ [cur])
    (hhour : firstTs cur / usPerHour = hourOf h) :
    cut hourOf (seen ++ [h]) = closed ++ [cur ++ [h]] := by
  rw [cut_concat, hcut, List.getLast?_concat]
  dsimp only
  rw [getLast?_hour hcut, if_pos (congrArg some hhour), List.dropLast_concat]

private theorem cut_next_hour (hcut : cut hourOf seen = closed ++ [cur])
    (hhour : firstTs cur / usPerHour ≠ hourOf h) :
    cut hourOf (seen ++ [h]) = closed ++ [cur] ++ [[h]] := by
  rw [cut_concat, hcut, List.getLast?_concat]
  dsimp only
  rw [getLast?_hour hcut, if_neg fun heq ↦ hhour (Option.some.inj heq)]

end Cut

section Triples

variable {o : Oracle Op} {J P : Disk → Prop} {E : Error → Disk → Prop} {C : Disk → Prop}
  {t : Target} {before : List (WrittenFile × Path)}

/-- Closing leaves a complete file for each hour seen. -/
theorem close_triple (hx : Exits Op.onFiles o J ioError E C) (hJ : ∀ d, P d → J d)
    (hP : t.Ignored P) {seen : List Head} {s : Partition}
    (hrefused : ∀ c ∈ cut hourOf seen, t.Refusals o (c.map t.rowOf) P E) :
    Triple o (fun d ↦ P d ∧ At o t before seen s d) (s.close t)
      (fun s' d ↦ P d ∧ s' = ⟨none, before ++ (cut hourOf seen).map t.written⟩ ∧
        t.Closed o (cut hourOf seen) d) E C := by
  refine .intro ?_
  rintro d₁ ⟨hd₁, ⟨rfl, rfl⟩ | ⟨closed, cur, w, hcut, hw⟩⟩
  · exact .ret fun d hd ↦ hd ▸ ⟨hd₁, by simp [cut], by simp [Target.Closed, cut]⟩
  · rw [hw.state, close]
    dsimp only
    refine .bind ((PartitionWriter.finish_triple (t := t) hx (fun d hd ↦ hJ d hd.1) (hw.ignored hP)
      ((hrefused cur (mem_cut_concat hcut)).pre fun d ↦ And.left)).pre fun d hd ↦ ?_)
        fun n ↦ .ret ?_
    · rw [hd]
      exact ⟨⟨hd₁, hw.closed⟩, hw.streams⟩
    · rintro d ⟨⟨hd, hclosed⟩, rfl, hstaged⟩
      refine ⟨hd, ?_, ?_⟩
      · rw [hcut, List.map_append, hw.path, List.length_map, ← List.append_assoc]
        rfl
      · rw [hcut, Target.Closed, List.forall_mem_append, List.forall_mem_singleton, ← hw.path]
        exact ⟨hclosed, hstaged⟩

theorem turn_triple (hx : Exits Op.onFiles o J ioError E C) (hJ : ∀ d, P d → J d) (hP : t.Ignored P)
    (hcodec : t.compression ∉ supportedCompression →
      ∀ d, P d → E (.config (.compression t.compression)) d)
    {seen out : List Head} {h : Head} {s : Partition} (hseen : seen ++ [h] <+: out)
    (hsorted : (seen ++ [h]).Pairwise fun a b ↦ hourOf a ≤ hourOf b)
    (hrefused : ∀ c ∈ cut hourOf out, t.Refusals o (c.map t.rowOf) P E) :
    Triple o (fun d ↦ P d ∧ At o t before seen s d) (s.turn t h.ts.toNat)
      (fun s' d ↦ P d ∧ ∃ closed cur w, cut hourOf (seen ++ [h]) = closed ++ [cur ++ [h]] ∧
        Writing o t before closed cur h.ts.toNat w s' d) E C := by
  obtain ⟨more, rfl⟩ := hseen
  -- a new file, once those before it are closed
  have hcreate : ∀ (closed : List (List Head)) (staged : List (WrittenFile × Path)),
      staged = before ++ closed.map t.written →
      (∀ c ∈ closed, firstTs c / usPerHour ≠ h.ts.toNat / usPerHour) →
      cut hourOf (seen ++ [h]) = closed ++ [[h]] →
      Triple o (fun d ↦ P d ∧ t.Closed o closed d)
        (do
          Io.touch .stageMkdir
          let w ← PartitionWriter.create t (t.path h.ts.toNat)
          return ⟨some (h.ts.toNat / usPerHour, hourPartition h.ts.toNat, w), staged⟩)
        (fun s' d ↦ P d ∧ ∃ closed cur w, cut hourOf (seen ++ [h]) = closed ++ [cur ++ [h]] ∧
          Writing o t before closed cur h.ts.toNat w s' d) E C := by
    rintro closed staged rfl hne hcut
    obtain ⟨c, rest, hout, -⟩ := cut_append hcut more
    have hrefusedNow := hrefused c (hout ▸ by simp)
    refine .bind (Io.touch_exits hx fun d hd ↦ hJ d hd.1) fun _ ↦
      .bind (PartitionWriter.create_triple hx (fun d hd ↦ hJ d hd.1)
        (fun hunknown d hd ↦ hcodec hunknown d hd.1) (hP.and_closed hne)
        (hrefusedNow.pre fun d ↦ And.left)) fun w ↦ .ret ?_
    rintro d ⟨⟨hd, hclosed⟩, hpath, hstreams⟩
    exact ⟨hd, closed, [], w, hcut, rfl, hpath, hstreams, hne, hclosed⟩
  refine .intro ?_
  rintro d₁ ⟨hd₁, ⟨rfl, rfl⟩ | ⟨closed, cur, w, hcut, hw⟩⟩
  · exact (hcreate [] before (by simp) (by simp) rfl).pre fun d hd ↦
      hd ▸ ⟨hd₁, by simp [Target.Closed]⟩
  · by_cases hhour : firstTs cur / usPerHour = hourOf h
    · have hsame : s.current.any (fun c ↦ c.1 == h.ts.toNat / usPerHour) = true := by
        rw [hw.state]
        exact beq_iff_eq.2 hhour
      rw [turn, if_pos hsame]
      exact .ret fun d hd ↦ hd ▸ ⟨hd₁, closed, cur, w, cut_same_hour hcut hhour, hw.congr hhour⟩
    · have hother : ¬ s.current.any (fun c ↦ c.1 == h.ts.toNat / usPerHour) = true := by
        rw [hw.state]
        exact fun heq ↦ hhour (beq_iff_eq.1 heq)
      have hnext := cut_next_hour hcut hhour
      have hat : ∀ d, d = d₁ → P d ∧ At o t before seen s d :=
        fun d hd ↦ hd ▸ ⟨hd₁, .inr ⟨closed, cur, w, hcut, hw⟩⟩
      -- the hours seen are over, so their files are final
      have hover : ∀ c ∈ cut hourOf seen, t.Refusals o (c.map t.rowOf) P E := fun c hc ↦ by
        obtain ⟨c', rest, hout, -⟩ := cut_append hnext more
        refine hrefused c (hout ▸ List.mem_append_left _ ?_)
        rwa [← hcut]
      rw [turn, if_neg hother]
      refine .bind ((close_triple hx hJ hP hover).pre hat) fun s' ↦ .intro ?_
      rintro d₂ ⟨hd₂, rfl, hclosed⟩
      rw [hcut] at hclosed ⊢
      exact (hcreate _ _ rfl (hours_ne hsorted hnext) hnext).pre fun d hd ↦ hd ▸ ⟨hd₂, hclosed⟩

/-- **One record of the merge** is added to the file of its hour. -/
theorem emit_triple (hx : Exits Op.onFiles o J ioError E C) (hJ : ∀ d, P d → J d) (hP : t.Ignored P)
    (hcodec : t.compression ∉ supportedCompression →
      ∀ d, P d → E (.config (.compression t.compression)) d)
    {seen out : List Head} {h : Head} {s : Partition} (hseen : seen ++ [h] <+: out)
    (hsorted : (seen ++ [h]).Pairwise fun a b ↦ hourOf a ≤ hourOf b) (hwritable : t.Writable h)
    (hlarge : 2 ^ 63 ≤ h.ts.toNat → ∀ d, P d → E (.config (.tsTooLarge h.ts)) d)
    (hrefused : ∀ c ∈ cut hourOf out, t.Refusals o (c.map t.rowOf) P E) :
    Triple o (fun d ↦ P d ∧ At o t before seen s d) (s.emit t h)
      (fun s' d ↦ P d ∧ At o t before (seen ++ [h]) s' d ∧ h.ts.toNat < 2 ^ 63) E C := by
  obtain ⟨r, n, hdecode, hfit, hts⟩ := hwritable
  have hrow : t.rowOf h = r.fileRow := by rw [Target.rowOf, hdecode]
  refine .bind (turn_triple hx hJ hP hcodec hseen hsorted hrefused) fun s' ↦ .intro ?_
  rintro d₁ ⟨hd₁, closed, cur, w, hcut, hw⟩
  obtain ⟨more, rfl⟩ := hseen
  obtain ⟨c, rest, hout, hprefix⟩ := cut_append hcut more
  have hall : cur.map t.rowOf ++ [r.fileRow] <+: c.map t.rowOf := by
    have hmap := hprefix.map t.rowOf
    rwa [List.map_append, List.map_singleton, hrow] at hmap
  rw [hdecode, hw.state]
  dsimp only
  refine .bind ((PartitionWriter.append_triple (t := t) hx (fun d hd ↦ hJ d hd.1) (hw.ignored hP)
    hfit (fun hlt d hd ↦ hts ▸ hlarge (hts ▸ hlt) d hd.1) hall
    ((hrefused c (hout ▸ by simp)).pre fun d ↦ And.left)).pre ?_) fun w' ↦ .ret ?_
  · rintro d rfl
    exact ⟨⟨hd₁, hw.closed⟩, hw.streams⟩
  · rintro d ⟨⟨hd, hclosed⟩, hpath, hstreams, hsmall⟩
    have hwriting : Writing o t before closed (cur ++ [h]) h.ts.toNat w'
        ⟨some (h.ts.toNat / usPerHour, hourPartition h.ts.toNat, w'),
          before ++ closed.map t.written⟩ d := by
      refine ⟨rfl, hpath.trans hw.path, ?_, hw.distinct, hclosed⟩
      rw [List.map_append, List.map_singleton, hrow]
      exact hstreams
    refine ⟨hd, .inr ⟨closed, cur ++ [h], w', hcut, hwriting.congr ?_⟩, hts ▸ hsmall⟩
    exact (hourOf_of_mem_cut (mem_cut_concat hcut)).2 h (by simp)

end Triples

end Partition

/-! ## Whatever the records are -/

/-- A staged file with its footer. -/
def Disk.Complete (d : Disk) (p : Path) : Prop := ∃ f, d.tmp[p]? = some f ∧ f.complete = true

section Keeps

variable {o : Oracle Op} {P Q : Disk → Prop} {t : Target}

namespace PartitionWriter

variable {w : PartitionWriter}

theorem create_keeps {path : Path} (hQ : IgnoresStaged path Q) :
    Triple o Q (create t path) (fun w d ↦ Q d ∧ w.path = path ∧ path ∈ d.tmp) (fun _ ↦ Q) Q := by
  unfold create
  split_ifs
  · refine .bind (Q := fun _ d ↦ Q d ∧ path ∈ d.tmp) (Io.step_exits (.of_keeps _ o Q ioError)
      (fun _ ↦ id) ?_) fun _ ↦ .bind ((Io.crate_keeps fun _ ↦ id).exits (fun _ _ ↦ And.left)
      fun _ ↦ And.left) fun _ ↦ .ret fun d hd ↦ ⟨hd.1, rfl, hd.2⟩
    exact fun d hd ↦ ⟨hQ d _ hd, Std.ExtTreeMap.mem_insert_self⟩
  · exact .fail fun _ ↦ id

theorem writeGroup_keeps (hQ : IgnoresStaged w.path Q) :
    Triple o Q w.writeGroup (fun w' d ↦ Q d ∧ w'.path = w.path) (fun _ ↦ Q) Q := by
  unfold writeGroup
  split_ifs
  · exact .ret fun d hd ↦ ⟨hd, rfl⟩
  · exact .bind (Io.crate_keeps fun _ ↦ id) fun _ ↦ .bind (Io.crate_keeps fun _ ↦ id) fun _ ↦
      .bind (Io.crate_keeps fun d hd ↦ hQ.onStaged hd _) fun _ ↦ .ret fun d hd ↦ ⟨hd, rfl⟩

theorem append_keeps (hQ : IgnoresStaged w.path Q) (r : RecordRef) :
    Triple o Q (w.append r) (fun w' d ↦ Q d ∧ w'.path = w.path) (fun _ ↦ Q) Q := by
  unfold append
  cases RowBuilder.append r.ts r.id r.keys r.extra r.data w.builder with
  | error e _ => exact .fail fun _ ↦ id
  | ok _ builder =>
    dsimp only
    split_ifs
    · exact writeGroup_keeps hQ
    · exact .ret fun d hd ↦ ⟨hd, rfl⟩

theorem finish_keeps (hQ : IgnoresStaged w.path Q) :
    Triple o (fun d ↦ Q d ∧ w.path ∈ d.tmp) w.finish (fun _ d ↦ Q d ∧ d.Complete w.path)
      (fun _ ↦ Q) Q := by
  have hmem : IgnoresStaged w.path fun d ↦ Q d ∧ w.path ∈ d.tmp :=
    fun d f hd ↦ ⟨hQ d f hd.1, Std.ExtTreeMap.mem_insert_self⟩
  refine .bind ((writeGroup_keeps hmem).exits (fun _ _ ↦ And.left) fun _ ↦ And.left) fun w' ↦
    .bind (Q := fun _ d ↦ Q d ∧ d.Complete w.path)
      (Io.crate_triple ?_ (fun _ _ hd ↦ hd.1.1) fun _ hd ↦ hd.1.1) fun _ ↦
      .bind (Io.touch_exits (.of_keeps _ o Q ioError) fun _ ↦ And.left) fun _ ↦ .ret fun _ ↦ id
  rintro d ⟨⟨hd, hfile⟩, hpath⟩ -
  rw [← hpath] at hQ hfile ⊢
  obtain ⟨f, hf⟩ := Option.isSome_iff_exists.1 (Std.ExtTreeMap.isSome_getElem?_iff_mem.2 hfile)
  refine ⟨hQ.onStaged hd _, { f with complete := true }, ?_, rfl⟩
  rw [Disk.onStaged, getElem?_updateParquet, if_pos rfl, hf]
  rfl

end PartitionWriter

namespace Partition

/-- The path of the file being written. -/
def path (s : Partition) : Option Path := s.current.map fun c ↦ c.2.2.path

/-- The files reported are complete and named as `N` says, and there are no other files than these
and those of `B`; the file at `p` is left out of this. -/
structure Off (N B : Path → Prop) (staged : List (WrittenFile × Path)) (p : Option Path)
    (d : Disk) : Prop where
  complete : ∀ x ∈ staged, d.Complete x.2 ∨ p = some x.2
  named : ∀ x ∈ staged, N x.2
  tracked : ∀ q ∈ d.tmp, B q ∨ (∃ x ∈ staged, x.2 = q) ∨ p = some q

/-- The file being written is one of the group, and the others are as they should be. A file that
was reported may be written once more. -/
structure Safe (t : Target) (N B : Path → Prop) (s : Partition) (d : Disk) : Prop where
  off : Off N B s.staged s.path d
  current : ∀ p ∈ s.path, (∃ ts, p = t.path ts) ∧ p ∈ d.tmp

variable {N B : Path → Prop}

theorem Off.of_none {staged : List (WrittenFile × Path)} {d : Disk} (h : Off N B staged none d)
    (p : Option Path) : Off N B staged p d :=
  ⟨fun x hx ↦ .inl ((h.complete x hx).resolve_right nofun), h.named,
    fun q hq ↦ (h.tracked q hq).imp_right fun hq ↦ .inl (hq.resolve_right nofun)⟩

theorem ignores_off (hP : t.Ignored P) (staged : List (WrittenFile × Path)) (ts : ℕ) :
    IgnoresStaged (t.path ts) fun d ↦ P d ∧ Off N B staged (some (t.path ts)) d := by
  rintro d f ⟨hd, hoff⟩
  refine ⟨hP ts d f hd, fun x hx ↦ ?_, hoff.named, fun q hq ↦ ?_⟩
  · by_cases hpath : t.path ts = x.2
    · exact .inr (congrArg some hpath)
    · obtain ⟨g, hg, hcomplete⟩ := (hoff.complete x hx).resolve_right fun h ↦
        hpath (Option.some.inj h)
      exact .inl ⟨g, (getElem?_insert_of_ne hpath).trans hg, hcomplete⟩
  · rcases Std.ExtTreeMap.mem_insert.1 hq with heq | hq
    · exact .inr (.inr (congrArg some (Std.LawfulEqCmp.eq_of_compare heq)))
    · exact hoff.tracked q hq

theorem close_keeps (hP : t.Ignored P) (hN : ∀ ts, N (t.path ts)) (s : Partition) :
    Triple o (fun d ↦ P d ∧ s.Safe t N B d) (s.close t)
      (fun s' d ↦ P d ∧ s'.current = none ∧ Off N B s'.staged none d) (fun _ ↦ P) P := by
  refine .intro fun d₁ hd₁ ↦ ?_
  unfold close
  cases hc : s.current with
  | none =>
    refine .ret ?_
    rintro d rfl
    have hoff := hd₁.2.off
    rw [path, hc] at hoff
    exact ⟨hd₁.1, hc, hoff⟩
  | some c =>
    have hpath : s.path = some c.2.2.path := by rw [path, hc]; rfl
    obtain ⟨⟨ts, hts⟩, hmem⟩ := hd₁.2.current _ hpath
    have hignores := ignores_off (N := N) (B := B) hP s.staged ts
    rw [← hts] at hignores
    refine .bind (((PartitionWriter.finish_keeps hignores).pre ?_).exits (fun _ _ ↦ And.left)
      fun _ ↦ And.left) fun rows ↦ .ret ?_
    · rintro d rfl
      exact ⟨⟨hd₁.1, hpath ▸ hd₁.2.off⟩, hmem⟩
    · rintro d ⟨⟨hd, hoff⟩, hcomplete⟩
      refine ⟨hd, rfl, ?_, ?_, fun q hq ↦ ?_⟩
      · rw [List.forall_mem_append, List.forall_mem_singleton]
        refine ⟨fun x hx ↦ .inl ?_, .inl hcomplete⟩
        rcases hoff.complete x hx with h | h
        · exact h
        · exact Option.some.inj h ▸ hcomplete
      · rw [List.forall_mem_append, List.forall_mem_singleton]
        exact ⟨hoff.named, hts ▸ hN ts⟩
      · refine (hoff.tracked q hq).imp_right fun h ↦ .inl ?_
        rcases h with ⟨x, hx, rfl⟩ | h
        · exact ⟨x, List.mem_append_left _ hx, rfl⟩
        · exact ⟨_, List.mem_append_right _ (List.mem_singleton_self _), Option.some.inj h⟩

theorem turn_keeps (hP : t.Ignored P) (hN : ∀ ts, N (t.path ts)) (s : Partition) (ts : ℕ) :
    Triple o (fun d ↦ P d ∧ s.Safe t N B d) (s.turn t ts) (fun s' d ↦ P d ∧ s'.Safe t N B d)
      (fun _ ↦ P) P := by
  unfold turn
  split_ifs
  · exact .ret fun _ ↦ id
  · refine .bind (close_keeps hP hN s) fun s' ↦
      .bind (Io.touch_exits (.of_keeps _ o P ioError) fun _ ↦ And.left) fun _ ↦
      .bind (((PartitionWriter.create_keeps
        (ignores_off (N := N) (B := B) hP s'.staged ts)).pre ?_).exits
        (fun _ _ ↦ And.left) fun _ ↦ And.left) fun w ↦ .ret ?_
    · rintro d ⟨hd, -, hoff⟩
      exact ⟨hd, hoff.of_none _⟩
    · rintro d ⟨⟨hd, hoff⟩, hpath, hmem⟩
      refine ⟨hd, ?_, fun p hp ↦ ?_⟩
      · rw [← hpath] at hoff
        exact hoff
      · obtain rfl : w.path = p := Option.some.inj hp
        exact ⟨⟨ts, hpath⟩, hpath ▸ hmem⟩

/-- **Any record**: the files reported stay complete, and an error or a crash leaves what does not
look at the files of the group. -/
theorem emit_keeps (hP : t.Ignored P) (hN : ∀ ts, N (t.path ts)) (s : Partition) (h : Head) :
    Triple o (fun d ↦ P d ∧ s.Safe t N B d) (s.emit t h) (fun s' d ↦ P d ∧ s'.Safe t N B d)
      (fun _ ↦ P) P := by
  refine .bind (turn_keeps hP hN s h.ts.toNat) fun s' ↦ ?_
  cases decodeVerified h.frame t.keys.length with
  | error e => exact .fail fun _ ↦ And.left
  | ok r =>
    dsimp only
    cases hc : s'.current with
    | none => exact .ret fun _ ↦ id
    | some c =>
      have hcur : s'.path = some c.2.2.path := by rw [path, hc]; rfl
      refine .intro fun d₁ hd₁ ↦ ?_
      obtain ⟨⟨ts, hts⟩, hmem⟩ := hd₁.2.current _ hcur
      have hignores : IgnoresStaged c.2.2.path
          fun d ↦ (P d ∧ Off N B s'.staged (some c.2.2.path) d) ∧ c.2.2.path ∈ d.tmp := fun d f hd ↦
        ⟨hts ▸ ignores_off hP s'.staged ts d f (hts ▸ hd.1), Std.ExtTreeMap.mem_insert_self⟩
      refine .bind (((PartitionWriter.append_keeps hignores r.1).pre ?_).exits
        (fun _ _ hd ↦ hd.1.1) fun _ hd ↦ hd.1.1) fun w ↦ .ret ?_
      · rintro d rfl
        exact ⟨⟨hd₁.1, hcur ▸ hd₁.2.off⟩, hmem⟩
      · rintro d ⟨⟨⟨hd, hoff⟩, hmem⟩, hpath⟩
        refine ⟨hd, ?_, fun p hp ↦ ?_⟩
        · rw [← hpath] at hoff
          exact hoff
        · obtain rfl : w.path = p := Option.some.inj hp
          exact ⟨⟨ts, hpath.trans hts⟩, hpath ▸ hmem⟩

end Partition

end Keeps

end Orc
