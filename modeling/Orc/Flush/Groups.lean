import Orc.Bytes.Text
import Orc.Flush.Buffers
import Orc.Format.Levels

/-!
# Row groups

The columns of a file are handed to the Parquet writer group by group, and in each group column by
column: a batch of values, with definition and repetition levels where the schema has them. The
writer is outside the model and is taken to store the batches it is given, so a file is the list of
the groups issued to it. `writeFile` cuts the columns of all rows, with a cursor per column carried
from group to group; `PartitionWriter` fills its builder, issues one group from the start of the
columns, and clears them.

A flush streams, so that one group is in memory at a time; whole-file writing is what the source
requires streaming to agree with, byte for byte. The cursors are what could differ: a key column
advances by the values present and the map by its pairs, not by rows.

## One group for both

`groupOf` is the group of a list of rows. `writeGroup`, at the right cursors, issues the group of
the rows in its range (`writeGroup_of`), so both writers issue the groups of the same cuts (`Cuts`).

This needs the count of each row to be the number of its pairs. A count is a `u32` and wraps, and
pairs that no row counts are left in the columns (`Orc.Flush.Buffers`). Streaming clears its columns
behind each group and drops them; whole-file writing carries its cursor past the counted pairs only
and issues them with the rows of a later group. On such rows the two differ, which is the last
section.
-/

namespace Orc

open Bytes Format Text

namespace Buffer

/-! ## Batches -/

/-- The values of one batch. -/
inductive Cells where
  | bool (xs : List Bool)
  | i64 (xs : List Int64)
  | f64 (xs : List UInt64)
  | bytes (xs : List Bytes)
  deriving DecidableEq, Repr

def Cells.physical : Cells → Physical
  | bool _ => .boolean
  | i64 _ => .int64
  | f64 _ => .double
  | bytes _ => .byteArray

/-- What one column writer is given. -/
structure Batch where
  cells : Cells
  defs : Option (List ℕ) := none
  reps : Option (List ℕ) := none
  deriving DecidableEq, Repr

/-- Definition and repetition levels of the `extra` map. -/
structure MapLevels where
  keyDefs : List ℕ := []
  valueDefs : List ℕ := []
  reps : List ℕ := []
  /-- Present entries in these rows: how far to advance the value cursor. -/
  entries : ℕ
  deriving DecidableEq, Repr

namespace MapLevels

def push (out : MapLevels) (keyDef valueDef rep : ℕ) : MapLevels :=
  { out with
    keyDefs := out.keyDefs ++ [keyDef]
    valueDefs := out.valueDefs ++ [valueDef]
    reps := out.reps ++ [rep] }

/-- One row. An empty map still occupies one level slot. -/
def row (out : MapLevels) (count : ℕ) : MapLevels :=
  if count = 0 then
    out.push 0 0 0
  else
    (List.range count).foldl (fun out i ↦ out.push 1 2 (if i = 0 then 0 else 1)) out

def forRows (counts : List ℕ) : MapLevels := counts.foldl row { entries := counts.sum }

end MapLevels

/-- Per-column value offsets carried across row groups. -/
structure Cursors where
  keys : List ℕ
  extra : ℕ
  deriving DecidableEq, Repr

/-- The values of a key column in a range. -/
def Values.cells (vals : Values) (a b : ℕ) : Option Cells :=
  match vals with
  | bool xs => (slice xs a b).map .bool
  | i64 xs => (slice xs a b).map .i64
  | f64 xs => (slice xs a b).map .f64
  | str xs => (xs.arrays a b).map .bytes

namespace Columns

/-- The batches of the key columns, and where their cursors are then. -/
def writeKeys (start stop : ℕ) :
    List KeyColumn → List ℕ → Option (List Batch × List ℕ)
  | [], cursors => some ([], cursors)
  | _ :: _, [] => none
  | column :: columns, first :: cursors => do
    let defs ← slice column.defs start stop
    -- one value for each present row
    let last := first + defs.count 1
    let cells ← column.vals.cells first last
    let (batches, lasts) ← writeKeys start stop columns cursors
    return ({ cells, defs := some defs } :: batches, last :: lasts)

/-- The rows from `start` up to `stop` as one row group. -/
def writeGroup (c : Columns) (start stop : ℕ) (cursors : Cursors) :
    Option (List Batch × Cursors) := do
  let ts ← slice c.ts start stop
  let id ← c.id.arrays start stop
  let (keys, lasts) ← writeKeys start stop c.keys cursors.keys
  let levels := MapLevels.forRows (← slice c.extraCounts start stop)
  let last := cursors.extra + levels.entries
  let extraKeys ← c.extraKeys.arrays cursors.extra last
  let extraValues ← c.extraValues.arrays cursors.extra last
  let data ← c.data.arrays start stop
  let batches : List Batch := { cells := .i64 ts } :: { cells := .bytes id } :: keys ++
    [{ cells := .bytes extraKeys, defs := some levels.keyDefs, reps := some levels.reps },
      { cells := .bytes extraValues, defs := some levels.valueDefs, reps := some levels.reps },
      { cells := .bytes data }]
  -- each column writer is of the type that its column has in the schema
  if batches.map (fun b ↦ b.cells.physical) = c.schema.map Leaf.physical then
    return (batches, ⟨lasts, last⟩)
  else
    none

/-- The cursors at the first row. -/
def cursors (c : Columns) : Cursors := ⟨List.replicate c.keys.length 0, 0⟩

/-- The loop of `write_file`; each turn takes a row at least, so that as many turns as there are
rows are enough. -/
def writeGroups (c : Columns) (groupRows : ℕ) :
    (fuel start : ℕ) → Cursors → Option (List (List Batch))
  | fuel, start, cursors =>
    if c.rows ≤ start then
      some []
    else
      match fuel with
      | 0 => none
      | fuel + 1 => do
        let stop := min (start + groupRows) c.rows
        let (batches, cursors) ← c.writeGroup start stop cursors
        let groups ← writeGroups c groupRows fuel stop cursors
        return batches :: groups

/-- The row groups `write_file` issues for the columns. -/
def writeFile (c : Columns) (rowGroupRows : ℕ) : Option (List (List Batch)) :=
  c.writeGroups (max rowGroupRows 1) c.rows 0 c.cursors

end Columns

/-! ## Streaming -/

/-- A file streamed one row group at a time, with the groups issued so far. -/
structure PartitionWriter where
  issued : List (List Batch) := []
  builder : Columns
  groupRows : ℕ
  rows : ℕ := 0
  deriving DecidableEq

namespace PartitionWriter

def create (series : String) (keyDefs : List KeyDef) (rowGroupRows : ℕ) : PartitionWriter where
  builder := RowBuilder.new series keyDefs
  groupRows := max rowGroupRows 1

def writeGroup (w : PartitionWriter) : Option PartitionWriter :=
  if w.builder.rows = 0 then
    some w
  else do
    let (batches, _) ← w.builder.writeGroup 0 w.builder.rows w.builder.cursors
    return { w with issued := w.issued ++ [batches], builder := RowBuilder.clear w.builder }

/-- Append one row; a full row group is written out immediately. -/
def append (sort : IndexSort) (r : Row) (w : PartitionWriter) :
    Option (Except Error Unit × PartitionWriter) :=
  match RowBuilder.append sort r w.builder with
  | (.error e, builder) => some (.error e, { w with builder })
  | (.ok (), builder) =>
    let w := { w with builder, rows := w.rows + 1 }
    if w.groupRows ≤ w.builder.rows then
      w.writeGroup.map (.ok (), ·)
    else
      some (.ok (), w)

/-- Write the last row group; returns the groups issued and the row count. -/
def finish (w : PartitionWriter) : Option (List (List Batch) × ℕ) := do
  let w ← w.writeGroup
  return (w.issued, w.rows)

/-- Append the rows, as long as they are accepted, and finish. -/
def stream (sort : IndexSort) : List Row → PartitionWriter → Option (List (List Batch) × ℕ)
  | [], w => w.finish
  | r :: rest, w => do
    let (result, w) ← w.append sort r
    match result with
    | .error _ => none
    | .ok () => stream sort rest w

end PartitionWriter

/-- The columns built from rows that are all accepted. -/
def RowBuilder.build (sort : IndexSort) : List Row → Columns → Option Columns
  | [], c => some c
  | r :: rest, c =>
    match RowBuilder.append sort r c with
    | (.error _, _) => none
    | (.ok (), c) => RowBuilder.build sort rest c

/-! ## The group of a list of rows -/

/-- The definition level of a key value. -/
def keyLevel (v : Value) : ℕ := if v = .null then 0 else 1

def Values.toCells : Orc.Values → Cells
  | .bool xs => .bool xs
  | .i64 xs => .i64 xs
  | .f64 xs => .f64 xs
  | .str xs => .bytes (xs.map utf8)

/-- One batch per key, from the key lists of the rows. -/
def keyBatches : List KeyDef → List (List Value) → List Batch
  | [], _ => []
  | k :: ks, rows =>
    { cells := Values.toCells (.of k.ty (rows.map (·.headD .null)))
      defs := some ((rows.map (·.headD .null)).map keyLevel) } ::
      keyBatches ks (rows.map List.tail)

/-- The map keys of the rows, as records of a column. -/
def mapKeys (rows : List FileRow) : List (List (Option Bytes)) :=
  rows.map fun r ↦ (r.extra.map fun p ↦ utf8 p.1).map some

/-- The map values of the rows, as records of a column. -/
def mapValues (rows : List FileRow) : List (List (Option Bytes)) :=
  rows.map fun r ↦ (r.extra.map fun p ↦ utf8 p.2).map some

/-- A batch of records under the `extra` map, whose entries are there from definition level 1 on. -/
def mapBatch (maxDef : ℕ) (rs : List (List (Option Bytes))) : Batch where
  cells := .bytes (stripeValues rs)
  defs := some (stripeDefs maxDef 1 rs)
  reps := some (stripeReps rs)

/-- The row group of a list of rows. -/
def groupOf (keyDefs : List KeyDef) (rows : List FileRow) : List Batch :=
  { cells := .i64 (rows.map FileRow.ts) } ::
    { cells := .bytes (rows.map fun r ↦ utf8 r.id) } ::
    keyBatches keyDefs (rows.map FileRow.keys) ++
    [mapBatch 1 (mapKeys rows), mapBatch 2 (mapValues rows),
      { cells := .bytes (rows.map fun r ↦ utf8 r.data) }]

/-- How many values of a column are present. -/
def present (vs : List Value) : ℕ := vs.countP (· ≠ .null)

def keyCursors : List KeyDef → List (List Value) → List ℕ
  | [], _ => []
  | _ :: ks, rows => present (rows.map (·.headD .null)) :: keyCursors ks (rows.map List.tail)

/-- The cursors after a list of rows. -/
def cursorsAfter (keyDefs : List KeyDef) (rows : List FileRow) : Cursors :=
  ⟨keyCursors keyDefs (rows.map FileRow.keys), (rows.flatMap FileRow.extra).length⟩

/-! ## Levels of the map -/

namespace MapLevels

private theorem foldl_push (l : List ℕ) (out : MapLevels) :
    l.foldl (fun out i ↦ out.push 1 2 (if i = 0 then 0 else 1)) out =
      { out with
        keyDefs := out.keyDefs ++ List.replicate l.length 1
        valueDefs := out.valueDefs ++ List.replicate l.length 2
        reps := out.reps ++ l.map fun i ↦ if i = 0 then 0 else 1 } := by
  induction l generalizing out with
  | nil => simp
  | cons i l ih =>
    rw [List.foldl_cons, ih]
    simp [push, List.replicate_succ]

private theorem row_eq (out : MapLevels) (xs ys : List Bytes) (hlen : xs.length = ys.length) :
    out.row xs.length =
      { out with
        keyDefs := out.keyDefs ++ (slots 1 1 (xs.map some)).map Prod.fst
        valueDefs := out.valueDefs ++ (slots 2 1 (ys.map some)).map Prod.fst
        reps := out.reps ++ recordReps (xs.map some) } := by
  rw [map_fst_slots_some, map_fst_slots_some, recordReps_eq, List.length_map, ← hlen, row]
  split_ifs with hzero
  · rfl
  · obtain ⟨n, hn⟩ := Nat.exists_eq_succ_of_ne_zero hzero
    rw [foldl_push, hn, List.length_range, List.range_succ_eq_map, List.map_cons, if_pos rfl,
      List.map_map]
    have hones : (List.range n).map ((fun i ↦ if i = 0 then 0 else 1) ∘ Nat.succ) =
        List.replicate n 1 := by
      rw [List.eq_replicate_iff]
      simp
    rw [hones, Nat.succ_sub_one]

/-- **The levels of the map** are those of the records of its keys and of its values. -/
theorem forRows_eq (rows : List FileRow) :
    forRows (rows.map fun r ↦ r.extra.length) =
      { keyDefs := stripeDefs 1 1 (mapKeys rows)
        valueDefs := stripeDefs 2 1 (mapValues rows)
        reps := stripeReps (mapKeys rows)
        entries := (rows.flatMap FileRow.extra).length } := by
  have hfold : ∀ (rows : List FileRow) (out : MapLevels),
      (rows.map fun r ↦ r.extra.length).foldl row out =
        { out with
          keyDefs := out.keyDefs ++ stripeDefs 1 1 (mapKeys rows)
          valueDefs := out.valueDefs ++ stripeDefs 2 1 (mapValues rows)
          reps := out.reps ++ stripeReps (mapKeys rows) } := by
    intro rows
    induction rows with
    | nil => simp [mapKeys, mapValues, stripeDefs, stripeReps]
    | cons r rows ih =>
      intro out
      have hrow := row_eq out (r.extra.map fun p ↦ utf8 p.1) (r.extra.map fun p ↦ utf8 p.2)
        (by rw [List.length_map, List.length_map])
      rw [List.length_map] at hrow
      rw [List.map_cons, List.foldl_cons, hrow, ih]
      simp only [mapKeys, mapValues, List.map_cons, stripeDefs, stripeReps, List.flatMap_cons,
        List.append_assoc]
  rw [forRows, hfold, List.length_flatMap]
  simp

end MapLevels

/-! ## Key columns -/

private theorem count_keyLevel (vs : List Value) : (vs.map keyLevel).count 1 = present vs := by
  rw [List.count, List.countP_map, present]
  refine List.countP_congr fun v _ ↦ ?_
  by_cases hv : v = .null <;> simp [keyLevel, hv]

private theorem present_append (vs vs' : List Value) :
    present (vs ++ vs') = present vs + present vs' :=
  List.countP_append

theorem length_filterMap_present {β : Type} {f : Value → Option β} {vs : List Value}
    (h : ∀ v ∈ vs, ((f v).isSome ↔ v ≠ .null)) : (vs.filterMap f).length = present vs := by
  rw [List.length_filterMap_eq_countP, present]
  exact List.countP_congr fun v hv ↦ by simpa using h v hv

private theorem slice_filterMap {β : Type} {f : Value → Option β} {xs ys zs : List Value}
    (h : ∀ v ∈ xs ++ (ys ++ zs), ((f v).isSome ↔ v ≠ .null)) :
    slice ((xs ++ (ys ++ zs)).filterMap f) (present xs) (present xs + present ys) =
      some (ys.filterMap f) := by
  simp only [List.mem_append] at h
  rw [List.filterMap_append, List.filterMap_append,
    ← length_filterMap_present fun v hv ↦ h v (.inl hv),
    ← length_filterMap_present fun v hv ↦ h v (.inr (.inl hv)), slice_append]

theorem arrays_packStr (xs ys zs : List String) :
    (packStr (xs ++ (ys ++ zs))).arrays xs.length (xs.length + ys.length) =
      some (ys.map utf8) := by
  have harrays := Packed.arrays_of (xs.map utf8) (ys.map utf8) (zs.map utf8)
  rwa [List.length_map, List.length_map, ← List.map_append, ← List.map_append] at harrays

private theorem arrays_filterMap {f : Value → Option String} {xs ys zs : List Value}
    (h : ∀ v ∈ xs ++ (ys ++ zs), ((f v).isSome ↔ v ≠ .null)) :
    (packStr ((xs ++ (ys ++ zs)).filterMap f)).arrays (present xs) (present xs + present ys) =
      some ((ys.filterMap f).map utf8) := by
  simp only [List.mem_append] at h
  rw [List.filterMap_append, List.filterMap_append,
    ← length_filterMap_present fun v hv ↦ h v (.inl hv),
    ← length_filterMap_present fun v hv ↦ h v (.inr (.inl hv)), arrays_packStr]

theorem keyType_eq_iff_of_fits {v : Value} {ty : KeyType} (h : v.FitsType ty) :
    v.keyType = some ty ↔ v ≠ .null := by
  rcases h with rfl | hty
  · exact iff_of_false (by simp [Value.keyType]) (by simp)
  · refine iff_of_true hty ?_
    rintro rfl
    cases hty

theorem Values.cells_of {ty : KeyType} {xs ys zs : List Value}
    (h : ∀ v ∈ xs ++ (ys ++ zs), v.FitsType ty) :
    (Values.pack (.of ty (xs ++ (ys ++ zs)))).cells (present xs) (present xs + present ys) =
      some (Values.toCells (.of ty ys)) := by
  have hnull := fun v hv ↦ keyType_eq_iff_of_fits (h v hv)
  cases ty with
  | bool =>
    refine congrArg (Option.map Cells.bool) (slice_filterMap fun v hv ↦ ?_)
    rw [← hnull v hv]
    cases v <;> simp [Value.keyType]
  | i64 =>
    refine congrArg (Option.map Cells.i64) (slice_filterMap fun v hv ↦ ?_)
    rw [← hnull v hv]
    cases v <;> simp [Value.keyType]
  | f64 =>
    refine congrArg (Option.map Cells.f64) (slice_filterMap fun v hv ↦ ?_)
    rw [← hnull v hv]
    cases v <;> simp [Value.keyType]
  | str =>
    refine congrArg (Option.map Cells.bytes) (arrays_filterMap fun v hv ↦ ?_)
    rw [← hnull v hv]
    cases v <;> simp [Value.keyType]

private theorem keyCursors_nil (keyDefs : List KeyDef) :
    keyCursors keyDefs [] = List.replicate keyDefs.length 0 := by
  induction keyDefs with
  | nil => rfl
  | cons k ks ih =>
    rw [keyCursors, List.map_nil, List.map_nil, ih, List.length_cons, List.replicate_succ]
    rfl

theorem cursors_of (series : String) (keyDefs : List KeyDef) (s : Held) :
    (Columns.of series keyDefs s).cursors = cursorsAfter keyDefs [] := by
  rw [Columns.cursors, RowBuilder.length_keys_of, cursorsAfter, List.map_nil, keyCursors_nil]
  rfl

private theorem writeKeys_cons {start stop first : ℕ} {column : KeyColumn}
    {columns : List KeyColumn} {cursors lasts defs : List ℕ} {cells : Cells} {batches : List Batch}
    (hdefs : slice column.defs start stop = some defs)
    (hcells : column.vals.cells first (first + defs.count 1) = some cells)
    (hrest : Columns.writeKeys start stop columns cursors = some (batches, lasts)) :
    Columns.writeKeys start stop (column :: columns) (first :: cursors) =
      some ({ cells, defs := some defs } :: batches, (first + defs.count 1) :: lasts) := by
  simp only [Columns.writeKeys, hdefs, hcells, hrest, Option.bind_eq_bind, Option.bind_some]
  rfl

private theorem writeKeys_of {keyDefs : List KeyDef} {xs ys zs : List (List Value)}
    (h : ∀ keys ∈ xs ++ (ys ++ zs), KeysFit keyDefs keys) :
    Columns.writeKeys xs.length (xs.length + ys.length)
      ((keyColumns keyDefs (xs ++ (ys ++ zs))).map KeyColumn.pack) (keyCursors keyDefs xs) =
      some (keyBatches keyDefs ys, keyCursors keyDefs (xs ++ ys)) := by
  induction keyDefs generalizing xs ys zs with
  | nil => rfl
  | cons k ks ih =>
    obtain ⟨hheads, htails, -⟩ := keysFit_cons h
    rw [List.map_append, List.map_append] at hheads htails
    have hcells := Values.cells_of hheads
    have hrest := ih htails
    have hdefs := slice_append ((xs.map (·.headD .null)).map keyLevel)
      ((ys.map (·.headD .null)).map keyLevel) ((zs.map (·.headD .null)).map keyLevel)
    rw [← List.map_append, ← List.map_append, List.length_map, List.length_map, List.length_map,
      List.length_map] at hdefs
    rw [List.length_map, List.length_map] at hrest
    rw [← count_keyLevel (ys.map _)] at hcells
    rw [keyColumns, keyBatches, keyCursors, keyCursors, List.map_cons, List.map_append,
      List.map_append, List.map_append, List.map_append, List.map_append, List.map_append,
      present_append, ← count_keyLevel (ys.map _)]
    exact writeKeys_cons hdefs hcells hrest

private theorem physical_keyBatches (keyDefs : List KeyDef) (rows : List (List Value)) :
    (keyBatches keyDefs rows).map (fun b ↦ b.cells.physical) =
      keyDefs.map fun k ↦ physical k.ty := by
  induction keyDefs generalizing rows with
  | nil => rfl
  | cons k ks ih =>
    rw [keyBatches, List.map_cons, List.map_cons, ih]
    congr 1
    cases k.ty <;> rfl

private theorem physical_groupOf (keyDefs : List KeyDef) (rows : List FileRow) :
    (groupOf keyDefs rows).map (fun b ↦ b.cells.physical) =
      (parquetSchema keyDefs).map Leaf.physical := by
  simp only [groupOf, parquetSchema, List.map_append, List.map_cons, List.map_nil,
    physical_keyBatches, List.map_map]
  rfl

/-! ## One group -/

private theorem slice_map {α β : Type} (f : α → β) (xs ys zs : List α) :
    slice ((xs ++ (ys ++ zs)).map f) xs.length (xs.length + ys.length) = some (ys.map f) := by
  have hslice := slice_append (xs.map f) (ys.map f) (zs.map f)
  rwa [List.length_map, List.length_map, ← List.map_append, ← List.map_append] at hslice

theorem arrays_map {α : Type} (f : α → String) (xs ys zs : List α) :
    (packStr ((xs ++ (ys ++ zs)).map f)).arrays xs.length (xs.length + ys.length) =
      some (ys.map fun a ↦ utf8 (f a)) := by
  have harrays := arrays_packStr (xs.map f) (ys.map f) (zs.map f)
  rwa [List.length_map, List.length_map, ← List.map_append, ← List.map_append, List.map_map]
    at harrays

theorem stripeValues_some {α : Type} (rows : List FileRow) (f : String × String → α) :
    stripeValues (rows.map fun r ↦ (r.extra.map f).map some) =
      (rows.flatMap FileRow.extra).map f := by
  rw [stripeValues, List.flatMap_map, List.map_flatMap]
  refine List.flatMap_congr fun r _ ↦ ?_
  rw [List.reduceOption, List.filterMap_map]
  exact List.filterMap_some

private theorem arrays_flatMap (f : String × String → String) (xs ys zs : List FileRow)
    (spare : List (String × String)) :
    (packStr (((xs ++ (ys ++ zs)).flatMap FileRow.extra ++ spare).map f)).arrays
      (xs.flatMap FileRow.extra).length
      ((xs.flatMap FileRow.extra).length + (ys.flatMap FileRow.extra).length) =
      some (stripeValues (ys.map fun r ↦ (r.extra.map fun p ↦ utf8 (f p)).map some)) := by
  rw [List.flatMap_append, List.flatMap_append, List.append_assoc, List.append_assoc, arrays_map,
    stripeValues_some]

/-- Rows that the columns hold as they are: the keys fit the schema, and the pairs their count. -/
structure Storable (keyDefs : List KeyDef) (r : FileRow) : Prop where
  keys : KeysFit keyDefs r.keys
  count : r.extra.length < 2 ^ 32

/-- **One row group.** At the cursors of the rows before, the rows of a range are issued as their
group. -/
theorem writeGroup_of (series : String) {keyDefs : List KeyDef} {xs ys zs : List FileRow}
    (spare : List (String × String)) (h : ∀ r ∈ xs ++ (ys ++ zs), Storable keyDefs r) :
    (Columns.of series keyDefs ⟨xs ++ (ys ++ zs), spare⟩).writeGroup xs.length
      (xs.length + ys.length) (cursorsAfter keyDefs xs) =
      some (groupOf keyDefs ys, cursorsAfter keyDefs (xs ++ ys)) := by
  have hkeys : Columns.writeKeys xs.length (xs.length + ys.length)
      ((keyColumns keyDefs ((xs ++ (ys ++ zs)).map FileRow.keys)).map KeyColumn.pack)
      (keyCursors keyDefs (xs.map FileRow.keys)) =
      some (keyBatches keyDefs (ys.map FileRow.keys),
        keyCursors keyDefs ((xs ++ ys).map FileRow.keys)) := by
    have hfit : ∀ keys ∈ xs.map FileRow.keys ++ (ys.map FileRow.keys ++ zs.map FileRow.keys),
        KeysFit keyDefs keys := by
      rw [← List.map_append, ← List.map_append]
      exact List.forall_mem_map.2 fun r hr ↦ (h r hr).keys
    have hwrite := writeKeys_of hfit
    rwa [List.length_map, List.length_map, ← List.map_append, ← List.map_append,
      ← List.map_append] at hwrite
  have hreps : stripeReps (mapKeys ys) = stripeReps (mapValues ys) := by
    simp only [stripeReps, mapKeys, mapValues, List.flatMap_map, recordReps_eq, List.length_map]
  have hlast : (xs.flatMap FileRow.extra).length + (ys.flatMap FileRow.extra).length =
      ((xs ++ ys).flatMap FileRow.extra).length := by
    rw [List.flatMap_append, List.length_append]
  rw [Columns.writeGroup, Columns.extraCounts_of fun r hr ↦ (h r hr).count]
  simp only [Columns.of, Columns.pack, Orc.Columns.of, cursorsAfter, slice_map, arrays_map, hkeys,
    MapLevels.forRows_eq, arrays_flatMap, Option.bind_eq_bind, Option.bind_some]
  have hschema := physical_groupOf keyDefs ys
  rw [groupOf, mapBatch, mapBatch, ← hreps] at hschema ⊢
  rw [hlast]
  exact if_pos hschema

/-! ## Cutting into groups -/

/-- Rows cut into full groups and a rest. -/
structure Cuts (size : ℕ) (rows : List FileRow) (full : List (List FileRow))
    (rest : List FileRow) : Prop where
  rows_eq : rows = full.flatten ++ rest
  full : ∀ g ∈ full, g.length = size
  rest : rest.length < size

/-- The groups of a cut: the rest is one more, unless it is empty. -/
def withRest (full : List (List FileRow)) (rest : List FileRow) : List (List FileRow) :=
  if rest = [] then full else full ++ [rest]

theorem flatten_withRest (full : List (List FileRow)) (rest : List FileRow) :
    (withRest full rest).flatten = full.flatten ++ rest := by
  rw [withRest]
  split_ifs with h
  · rw [h, List.append_nil]
  · rw [List.flatten_append, List.flatten_singleton]

theorem rows_of (series : String) (keyDefs : List KeyDef) (s : Held) :
    (Columns.of series keyDefs s).rows = s.rows.length := rfl

theorem Columns.writeGroups_done {c : Columns} {groupRows fuel start : ℕ} {cursors : Cursors}
    (h : c.rows ≤ start) : c.writeGroups groupRows fuel start cursors = some [] := by
  cases fuel <;> exact if_pos h

theorem Columns.writeGroups_step {c : Columns} {groupRows fuel start : ℕ}
    {cursors cursors' : Cursors} {batches : List Batch} (hstart : start < c.rows)
    (hgroup : c.writeGroup start (min (start + groupRows) c.rows) cursors =
      some (batches, cursors')) :
    c.writeGroups groupRows (fuel + 1) start cursors =
      (c.writeGroups groupRows fuel (min (start + groupRows) c.rows) cursors').map
        (batches :: ·) := by
  rw [Columns.writeGroups, if_neg (Nat.not_le.2 hstart)]
  simp only [hgroup, Option.bind_eq_bind, Option.bind_some]
  exact (Option.map_eq_bind).symm

private theorem writeGroups_of (series : String) {keyDefs : List KeyDef} {size fuel : ℕ}
    {front rest : List FileRow} {full : List (List FileRow)} (spare : List (String × String))
    (hfit : ∀ r ∈ front ++ (full.flatten ++ rest), Storable keyDefs r)
    (hfull : ∀ g ∈ full, g.length = size) (hrest : rest.length < size)
    (hfuel : (full.flatten ++ rest).length ≤ fuel) :
    (Columns.of series keyDefs ⟨front ++ (full.flatten ++ rest), spare⟩).writeGroups size fuel
      front.length (cursorsAfter keyDefs front) =
        some ((withRest full rest).map (groupOf keyDefs)) := by
  induction full generalizing front fuel with
  | nil =>
    rw [List.flatten_nil, List.nil_append] at hfit hfuel ⊢
    by_cases hnil : rest = []
    · rw [Columns.writeGroups_done (by simp [rows_of, hnil])]
      simp [withRest, hnil]
    · have hpos : 0 < rest.length := List.length_pos_iff.2 hnil
      obtain ⟨fuel, rfl⟩ := Nat.exists_eq_succ_of_ne_zero (Nat.ne_of_gt (hpos.trans_le hfuel))
      have hstop : min (front.length + size) (front ++ rest).length =
          front.length + rest.length := by
        rw [List.length_append]
        omega
      have hall : ∀ r ∈ front ++ (rest ++ []), Storable keyDefs r := by rwa [List.append_nil]
      have hgroup := writeGroup_of series spare hall
      rw [List.append_nil, ← hstop] at hgroup
      rw [Columns.writeGroups_step (by rw [rows_of, List.length_append]; omega) hgroup, rows_of,
        hstop, Columns.writeGroups_done (by rw [rows_of, List.length_append])]
      simp [withRest, hnil]
  | cons g full ih =>
    rw [List.forall_mem_cons] at hfull
    rw [List.flatten_cons, List.append_assoc] at hfit hfuel ⊢
    have hsize := hfull.1
    obtain ⟨fuel, rfl⟩ := Nat.exists_eq_succ_of_ne_zero (by
      rw [List.length_append] at hfuel
      omega : fuel ≠ 0)
    have hstop : min (front.length + size) (front ++ (g ++ (full.flatten ++ rest))).length =
        front.length + g.length := by
      rw [List.length_append, List.length_append]
      omega
    have hgroup := writeGroup_of series spare hfit
    rw [← hstop] at hgroup
    rw [Columns.writeGroups_step
      (by rw [rows_of, List.length_append, List.length_append]; omega) hgroup, rows_of, hstop,
      ← List.append_assoc front, ← List.length_append]
    rw [← List.append_assoc front] at hfit
    rw [ih hfit hfull.2 (by rw [List.length_append] at hfuel; omega)]
    rw [withRest, withRest]
    split_ifs <;> simp

/-- **Whole-file writing** issues the groups of the cut. -/
theorem writeFile_of (series : String) {keyDefs : List KeyDef} {rowGroupRows : ℕ}
    {s : Held} {rest : List FileRow} {full : List (List FileRow)}
    (hfit : ∀ r ∈ s.rows, Storable keyDefs r) (hcuts : Cuts (max rowGroupRows 1) s.rows full rest) :
    (Columns.of series keyDefs s).writeFile rowGroupRows =
      some ((withRest full rest).map (groupOf keyDefs)) := by
  obtain ⟨rows, spare⟩ := s
  obtain ⟨rfl, hfull, hrest⟩ := hcuts
  have hall : ∀ r ∈ [] ++ (full.flatten ++ rest), Storable keyDefs r := hfit
  rw [Columns.writeFile, cursors_of]
  exact writeGroups_of series spare hall hfull hrest
    (Nat.le_of_eq (rows_of series keyDefs ⟨full.flatten ++ rest, spare⟩).symm)

/-! ## Streaming -/

private theorem clear_keyColumns (keyDefs : List KeyDef) (rows : List (List Value)) :
    ((keyColumns keyDefs rows).map KeyColumn.pack).map (fun k ↦ ⟨k.vals.clear, []⟩) =
      (keyColumns keyDefs []).map KeyColumn.pack := by
  induction keyDefs generalizing rows with
  | nil => rfl
  | cons k ks ih =>
    simp only [keyColumns, List.map_cons, List.map_nil, ih]
    congr 1
    cases hty : k.ty <;> simp [KeyColumn.pack, KeyColumn.of, Orc.Values.of, Values.pack,
      Values.clear, packStr]

theorem RowBuilder.clear_of (series : String) (keyDefs : List KeyDef) (s : Held) :
    RowBuilder.clear (.of series keyDefs s) = .of series keyDefs {} := by
  simp only [RowBuilder.clear, Columns.of, Columns.pack, Orc.Columns.of, clear_keyColumns]
  rfl

namespace PartitionWriter

variable {sort : IndexSort} {series : String} {keyDefs : List KeyDef} {size : ℕ}
  {rows rest : List FileRow} {full : List (List FileRow)} {w : PartitionWriter} {s : Held} {r : Row}

theorem writeGroup_eq (hfit : ∀ r ∈ s.rows, Storable keyDefs r)
    (hbuilder : w.builder = .of series keyDefs s) (hspare : s.rows = [] → s.spare = []) :
    w.writeGroup = some { w with
      issued := w.issued ++ (withRest [] s.rows).map (groupOf keyDefs)
      builder := .of series keyDefs {} } := by
  obtain ⟨rest, spare⟩ := s
  by_cases hnil : rest = []
  · obtain rfl : spare = [] := hspare hnil
    subst hnil
    rw [writeGroup, if_pos (by rw [hbuilder]; rfl), ← hbuilder]
    simp [withRest]
  · have hall : ∀ r ∈ [] ++ (rest ++ []), Storable keyDefs r := by simpa using hfit
    have hgroup := writeGroup_of series spare hall
    rw [List.nil_append, List.append_nil, List.length_nil, Nat.zero_add] at hgroup
    have hrows : (Columns.of series keyDefs ⟨rest, spare⟩).rows ≠ 0 :=
      fun hzero ↦ hnil (List.length_eq_zero_iff.1 hzero)
    rw [writeGroup, hbuilder, if_neg hrows, cursors_of, rows_of, hgroup]
    simp [withRest, hnil, RowBuilder.clear_of]

theorem storable_push (hfit : ∀ r ∈ s.rows, Storable keyDefs r)
    (hr : RowBuilder.Accepted keyDefs r) : ∀ r' ∈ (s.push sort r).rows, Storable keyDefs r' := by
  have hcount := Held.push_count sort r fun r' hr' ↦ (hfit r' hr').count
  intro r' hr'
  refine ⟨?_, hcount r' hr'⟩
  rcases List.mem_append.1 hr' with hmem | hmem
  · exact (hfit r' hmem).keys
  · rw [List.mem_singleton.1 hmem]
    exact hr.fit

/-- **One row streamed**: it joins those in the builder, and once there are enough of them they are
issued as a group, whatever pairs are spare then. -/
theorem append_eq (sort : IndexSort) (hfit : ∀ r ∈ s.rows, Storable keyDefs r)
    (hbuilder : w.builder = .of series keyDefs s) (hr : RowBuilder.Accepted keyDefs r) :
    w.append sort r = some (.ok (),
      if w.groupRows ≤ (s.push sort r).rows.length then
        { w with
          issued := w.issued ++ [groupOf keyDefs (s.push sort r).rows]
          builder := .of series keyDefs {}
          rows := w.rows + 1 }
      else { w with builder := .of series keyDefs (s.push sort r), rows := w.rows + 1 }) := by
  have hne : (s.push sort r).rows ≠ [] := by simp [Held.push]
  have hgroup : PartitionWriter.writeGroup
      { w with builder := .of series keyDefs (s.push sort r), rows := w.rows + 1 } = _ :=
    writeGroup_eq (storable_push hfit hr) rfl fun hnil ↦ absurd hnil hne
  rw [withRest, if_neg hne] at hgroup
  simp only [append, hbuilder, RowBuilder.append_of hr.fit hr.ts, rows_of, hgroup, Option.map_some,
    List.nil_append, List.map_cons, List.map_nil]
  split_ifs <;> rfl

/-- What rows that are all counted have left of a writer: the full groups are issued, and the rest
is in the builder. -/
structure Holds (series : String) (keyDefs : List KeyDef) (size : ℕ) (rows : List FileRow)
    (full : List (List FileRow)) (rest : List FileRow) (w : PartitionWriter) : Prop where
  cuts : Cuts size rows full rest
  fit : ∀ r ∈ rows, Storable keyDefs r
  issued : w.issued = full.map (groupOf keyDefs)
  builder : w.builder = .of series keyDefs ⟨rest, []⟩
  groupRows : w.groupRows = size
  rows : w.rows = rows.length

private theorem holds_create (series : String) (keyDefs : List KeyDef) (rowGroupRows : ℕ) :
    Holds series keyDefs (max rowGroupRows 1) [] [] [] (create series keyDefs rowGroupRows) where
  cuts := ⟨rfl, by simp, Nat.lt_of_lt_of_le Nat.one_pos (Nat.le_max_right _ _)⟩
  fit := by simp
  issued := rfl
  builder := RowBuilder.new_eq_of series keyDefs
  groupRows := rfl
  rows := rfl

theorem Holds.fit_rest (h : Holds series keyDefs size rows full rest w) :
    ∀ r ∈ rest, Storable keyDefs r := fun r hr ↦ h.fit r (by
  rw [h.cuts.rows_eq]
  exact List.mem_append_right _ hr)

private theorem append_holds (hsort : sort.Lawful) (h : Holds series keyDefs size rows full rest w)
    (hr : RowBuilder.Accepted keyDefs r) (hcount : ¬ Uncountable r.extra) :
    ∃ full' rest' w', w.append sort r = some (.ok (), w') ∧
      Holds series keyDefs size (rows ++ [stored sort r]) full' rest' w' := by
  have hfit : ∀ r' ∈ rows ++ [stored sort r], Storable keyDefs r' := by
    rw [List.forall_mem_append, List.forall_mem_singleton]
    exact ⟨h.fit, hr.fit, (RowBuilder.length_kept_lt hsort).2 hcount⟩
  have hrows : rows ++ [stored sort r] = full.flatten ++ (rest ++ [stored sort r]) := by
    rw [← List.append_assoc, ← h.cuts.rows_eq]
  have hlen : (rest ++ [stored sort r]).length = rest.length + 1 := List.length_append
  have hrest := h.cuts.rest
  have happend := append_eq (s := ⟨rest, []⟩) sort h.fit_rest h.builder hr
  rw [Held.push_of_countable hsort rest hcount, h.groupRows] at happend
  by_cases hcut : size ≤ (rest ++ [stored sort r]).length
  · rw [if_pos hcut] at happend
    refine ⟨full ++ [rest ++ [stored sort r]], [], _, happend, ?_⟩
    refine ⟨⟨?_, ?_, ?_⟩, hfit, ?_, rfl, rfl, ?_⟩
    · rw [List.flatten_append, List.flatten_singleton, List.append_nil, hrows]
    · rw [List.forall_mem_append, List.forall_mem_singleton]
      exact ⟨h.cuts.full, by omega⟩
    · exact Nat.lt_of_le_of_lt (Nat.zero_le _) hrest
    · simp [h.issued]
    · simp [h.rows]
  · rw [if_neg hcut] at happend
    refine ⟨full, rest ++ [stored sort r], _, happend, ?_⟩
    exact ⟨⟨hrows, h.cuts.full, Nat.lt_of_not_le hcut⟩, hfit, h.issued, rfl, rfl,
      by simp [h.rows]⟩

/-- **All rows streamed.** -/
theorem stream_holds (hsort : sort.Lawful) {calls : List Row}
    (h : Holds series keyDefs size rows full rest w)
    (hcalls : ∀ r ∈ calls, RowBuilder.Accepted keyDefs r)
    (hcount : ∀ r ∈ calls, ¬ Uncountable r.extra) :
    ∃ full' rest', Cuts size (rows ++ calls.map (stored sort)) full' rest' ∧
      stream sort calls w = some ((withRest full' rest').map (groupOf keyDefs),
        rows.length + calls.length) := by
  induction calls generalizing rows full rest w with
  | nil =>
    refine ⟨full, rest, by simpa using h.cuts, ?_⟩
    rw [stream, finish, writeGroup_eq h.fit_rest h.builder fun _ ↦ rfl]
    simp only [Option.bind_eq_bind, Option.bind_some, h.issued, h.rows, withRest]
    split_ifs <;> simp
  | cons r calls ih =>
    rw [List.forall_mem_cons] at hcalls hcount
    obtain ⟨full', rest', w', happend, hholds⟩ := append_holds hsort h hcalls.1 hcount.1
    obtain ⟨full'', rest'', hcuts, hstream⟩ := ih hholds hcalls.2 hcount.2
    refine ⟨full'', rest'', ?_, ?_⟩
    · rwa [List.map_cons, List.append_cons]
    · rw [stream, happend]
      simp only [Option.bind_eq_bind, Option.bind_some, hstream, List.length_append,
        List.length_cons, List.length_nil]
      congr 2
      omega

end PartitionWriter

/-! ## Both ways of writing -/

/-- **The columns of accepted rows.** -/
theorem RowBuilder.build_eq_some_iff {sort : IndexSort} {series : String} {keyDefs : List KeyDef}
    {s : Held} {calls : List Row} {c : Columns} :
    build sort calls (.of series keyDefs s) = some c ↔
      (∀ r ∈ calls, Accepted keyDefs r) ∧
        c = .of series keyDefs (calls.foldl (Held.push sort) s) := by
  induction calls generalizing s with
  | nil => simp [build, eq_comm]
  | cons r calls ih =>
    rw [List.forall_mem_cons, List.foldl_cons, and_assoc, ← ih, build]
    by_cases hr : Accepted keyDefs r
    · rw [append_of hr.fit hr.ts, and_iff_right hr]
    · refine iff_of_false (fun h ↦ ?_) fun h ↦ hr h.1
      split at h
      · cases h
      · next hcall => exact hr (append_eq_ok_iff.1 hcall).1

private theorem exists_cuts {size : ℕ} (hsize : 0 < size) (rows : List FileRow) :
    ∃ full rest, Cuts size rows full rest := by
  induction rows using List.reverseRecOn with
  | nil => exact ⟨[], [], rfl, by simp, hsize⟩
  | append_singleton rows r ih =>
    obtain ⟨full, rest, rfl, hfull, hrest⟩ := ih
    by_cases hcut : rest.length + 1 = size
    · refine ⟨full ++ [rest ++ [r]], [], by simp, ?_, hsize⟩
      rw [List.forall_mem_append, List.forall_mem_singleton, List.length_append]
      exact ⟨hfull, hcut⟩
    · refine ⟨full, rest ++ [r], by simp, hfull, ?_⟩
      rw [List.length_append, List.length_singleton]
      omega

theorem Held.storable_foldl_push (sort : IndexSort) {keyDefs : List KeyDef} {calls : List Row}
    (h : ∀ r ∈ calls, RowBuilder.Accepted keyDefs r) {s : Held}
    (hs : ∀ r ∈ s.rows, Storable keyDefs r) :
    ∀ r ∈ (calls.foldl (Held.push sort) s).rows, Storable keyDefs r := by
  induction calls generalizing s with
  | nil => exact hs
  | cons r calls ih =>
    rw [List.forall_mem_cons] at h
    exact ih h.2 (PartitionWriter.storable_push hs h.1)

/-- The groups issued for the columns of accepted rows: they are those of the rows that the columns
hold. -/
theorem writeFile_build {sort : IndexSort} {series : String} {keyDefs : List KeyDef}
    {calls : List Row} {c : Columns}
    (hbuild : RowBuilder.build sort calls (RowBuilder.new series keyDefs) = some c)
    (rowGroupRows : ℕ) :
    (∀ r ∈ calls, RowBuilder.Accepted keyDefs r) ∧
      (∀ r ∈ (calls.foldl (Held.push sort) {}).rows, Storable keyDefs r) ∧
      ∃ chunks : List (List FileRow),
        chunks.flatten = (calls.foldl (Held.push sort) {}).rows ∧
        c.writeFile rowGroupRows = some (chunks.map (groupOf keyDefs)) := by
  rw [RowBuilder.new_eq_of, RowBuilder.build_eq_some_iff] at hbuild
  obtain ⟨hcalls, rfl⟩ := hbuild
  have hfit := Held.storable_foldl_push sort hcalls (s := {}) (by simp)
  have hsize : 0 < max rowGroupRows 1 := by omega
  obtain ⟨full, rest, hcuts⟩ := exists_cuts hsize
    (calls.foldl (Held.push sort) {}).rows
  refine ⟨hcalls, hfit, withRest full rest, ?_, writeFile_of series hfit hcuts⟩
  rw [flatten_withRest, hcuts.rows_eq]

/-- The groups that both writers issue, if the pairs of every row fit its count. -/
theorem issued_of {sort : IndexSort} (hsort : sort.Lawful) {series : String}
    {keyDefs : List KeyDef} {calls : List Row} {c : Columns}
    (hbuild : RowBuilder.build sort calls (RowBuilder.new series keyDefs) = some c)
    (hcount : ∀ r ∈ calls, ¬ Uncountable r.extra) (rowGroupRows : ℕ) :
    ∃ chunks : List (List FileRow), chunks.flatten = calls.map (stored sort) ∧
      c.writeFile rowGroupRows = some (chunks.map (groupOf keyDefs)) ∧
      PartitionWriter.stream sort calls (.create series keyDefs rowGroupRows) =
        some (chunks.map (groupOf keyDefs), calls.length) := by
  rw [RowBuilder.new_eq_of, RowBuilder.build_eq_some_iff] at hbuild
  obtain ⟨hcalls, rfl⟩ := hbuild
  have hfit := Held.storable_foldl_push sort hcalls (s := {}) (by simp)
  obtain ⟨full, rest, hcuts, hstream⟩ := PartitionWriter.stream_holds hsort
    (PartitionWriter.holds_create series keyDefs rowGroupRows) hcalls hcount
  rw [List.length_nil, Nat.zero_add] at hstream
  rw [Held.foldl_push_of_countable hsort hcount] at hfit ⊢
  refine ⟨withRest full rest, ?_, writeFile_of series hfit hcuts, hstream⟩
  rw [flatten_withRest, ← hcuts.rows_eq, List.nil_append]

end Buffer

end Orc
