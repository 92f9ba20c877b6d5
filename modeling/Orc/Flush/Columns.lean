import Orc.Codec.Layout
import Orc.Schema.Config

/-!
# Column chunks

The rows of one output file are gathered column by column before they are handed to the Parquet
writer: `ts` and `id`, one column per declared key with a definition level per row, the flattened
`extra` map with a count per row, and `data`.

A definition level says whether a row has a value, and only those that have one are in the column of
values; so the values of a key cannot be assigned to rows without the levels, nor the pairs of the
map without the counts. That a reader finds its rows again is therefore a statement about all
columns of a file together.

## What the columns hold

`Columns.of` is the layout of a list of rows, and `Columns.toRows` reads a layout back, following
the definition levels and the counts. Appending a row to the layout of some rows gives the layout of
the rows with it at the end (`append_of`), and the rows of a layout are read back as they were
(`toRows_of`).

Appending is partial: a timestamp is a `u64` in a record and signed in the file, and a value has to
be of its key's type. Types are checked when a segment is decoded, so only the timestamp can be
refused in a flush. It is checked before anything is pushed; a value of the wrong type is found half
way. The columns here are lists and the count of a row a natural number; `Orc.Flush.Buffers` has the
buffers and the widths.
-/

namespace Orc

open Bytes

/-- A row of an output file; the timestamp is the signed one of `TIMESTAMP(MICROS)`. -/
structure FileRow where
  ts : Int64
  id : String
  keys : List Value
  extra : List (String × String)
  data : String
  deriving DecidableEq, Repr

/-- The present values of one key column, in its declared type. -/
inductive Values where
  | bool (xs : List Bool)
  | i64 (xs : List Int64)
  | f64 (xs : List UInt64)
  | str (xs : List String)
  deriving DecidableEq, Repr

namespace Values

def empty : KeyType → Values
  | .bool => bool []
  | .i64 => i64 []
  | .f64 => f64 []
  | .str => str []

def keyType : Values → KeyType
  | bool _ => .bool
  | i64 _ => .i64
  | f64 _ => .f64
  | str _ => .str

/-- Add a value of the column's own type; any other is refused. -/
def push : Values → Value → Option Values
  | bool xs, .bool x => some (bool (xs ++ [x]))
  | i64 xs, .i64 x => some (i64 (xs ++ [x]))
  | f64 xs, .f64 x => some (f64 (xs ++ [x]))
  | str xs, .str x => some (str (xs ++ [x]))
  | _, _ => none

/-- The values as they were pushed. -/
def toList : Values → List Value
  | bool xs => xs.map .bool
  | i64 xs => xs.map .i64
  | f64 xs => xs.map .f64
  | str xs => xs.map .str

end Values

/-- One declared key column: a definition level per row (1 present, 0 null) and values for present
rows only. -/
structure KeyColumn where
  vals : Values
  defs : List ℕ
  deriving DecidableEq, Repr

/-- Append one value of a row. A null is a level with no value to go with it. -/
def KeyColumn.append (c : KeyColumn) (v : Value) (series key : String) : Except Error KeyColumn :=
  if v = .null then
    .ok { c with defs := c.defs ++ [0] }
  else
    match c.vals.push v with
    | some vals => .ok ⟨vals, c.defs ++ [1]⟩
    | none => .error (.typeMismatch series key c.vals.keyType v.keyType)

/-- Accumulated rows for one `(series, epoch)`, already sorted and deduplicated. -/
structure Columns where
  series : String
  keyNames : List String
  rows : ℕ := 0
  ts : List Int64 := []
  id : List String := []
  keys : List KeyColumn
  /-- Flattened map entries; `extraCounts` says how many belong to each row. -/
  extraKeys : List String := []
  extraValues : List String := []
  extraCounts : List ℕ := []
  data : List String := []
  deriving DecidableEq, Repr

namespace RowBuilder

def new (series : String) (keyDefs : List KeyDef) : Columns :=
  { series, keyNames := keyDefs.map KeyDef.name,
    keys := keyDefs.map fun k ↦ ⟨.empty k.ty, []⟩ }

/-- Append the key values of a row column by column. The first value refused stops the loop, with
the columns before it already extended. -/
def appendKeys (series : String) :
    List KeyColumn → List String → List Value → List KeyColumn × Option Error
  | c :: cs, name :: names, v :: vs =>
    match c.append v series name with
    | .error e => (c :: cs, some e)
    | .ok c' => ((c' :: (appendKeys series cs names vs).1), (appendKeys series cs names vs).2)
  | cs, _, _ => (cs, none)

/-- Append one row. The columns are left as far as they got when it is refused. -/
def append (ts : UInt64) (id : String) (keys : List Value) (extra : List (String × String))
    (data : String) : EStateM Error Columns Unit := fun c ↦
  if keys.length ≠ c.keys.length then
    .error (.keyArity c.series c.keys.length keys.length) c
  else if 2 ^ 63 ≤ ts.toNat then
    .error (.config (.tsTooLarge ts)) c
  else
    let (columns, refused) := appendKeys c.series c.keys c.keyNames keys
    let c := { c with ts := c.ts ++ [ts.toInt64], id := c.id ++ [id], keys := columns }
    match refused with
    | some e => .error e c
    | none =>
      -- a repeated map key makes a file unreadable, and raw ingest never canonicalised the pairs
      let kept := if isCanonical extra then extra else canonicalExtra extra
      .ok () { c with
        extraKeys := c.extraKeys ++ kept.map Prod.fst
        extraValues := c.extraValues ++ kept.map Prod.snd
        extraCounts := c.extraCounts ++ [kept.length]
        data := c.data ++ [data]
        rows := c.rows + 1 }

end RowBuilder

/-- The row a file holds for a decoded record. -/
def RecordRef.fileRow (r : RecordRef) : FileRow :=
  ⟨r.ts.toInt64, r.id, r.keys, canonicalExtra r.extra, r.data⟩

/-! ## The layout of a list of rows -/

/-- A value that a column of the type can hold. -/
def Value.FitsType (v : Value) (ty : KeyType) : Prop := v = .null ∨ v.keyType = some ty

def Values.of : KeyType → List Value → Values
  | .bool, vs => .bool (vs.filterMap fun | .bool b => some b | _ => none)
  | .i64, vs => .i64 (vs.filterMap fun | .i64 i => some i | _ => none)
  | .f64, vs => .f64 (vs.filterMap fun | .f64 x => some x | _ => none)
  | .str, vs => .str (vs.filterMap fun | .str s => some s | _ => none)

def KeyColumn.of (ty : KeyType) (vs : List Value) : KeyColumn :=
  ⟨.of ty vs, vs.map fun v ↦ if v = .null then 0 else 1⟩

/-- One column per key, from the key lists of the rows. -/
def keyColumns : List KeyDef → List (List Value) → List KeyColumn
  | [], _ => []
  | k :: ks, rows => .of k.ty (rows.map (·.headD .null)) :: keyColumns ks (rows.map List.tail)

/-- The columns of a list of rows. -/
def Columns.of (series : String) (keyDefs : List KeyDef) (rows : List FileRow) : Columns where
  series := series
  keyNames := keyDefs.map KeyDef.name
  rows := rows.length
  ts := rows.map FileRow.ts
  id := rows.map FileRow.id
  keys := keyColumns keyDefs (rows.map FileRow.keys)
  extraKeys := (rows.flatMap FileRow.extra).map Prod.fst
  extraValues := (rows.flatMap FileRow.extra).map Prod.snd
  extraCounts := rows.map fun r ↦ r.extra.length
  data := rows.map FileRow.data

/-- The key values of a row, one for each declared key and of its type. -/
def KeysFit (keyDefs : List KeyDef) (keys : List Value) : Prop :=
  List.Forall₂ (fun k v ↦ v.FitsType k.ty) keyDefs keys

/-! ## Appending a row -/

theorem Values.push_of {ty : KeyType} {vs : List Value} {v : Value} (h : v.keyType = some ty) :
    (Values.of ty vs).push v = some (.of ty (vs ++ [v])) := by
  cases v with
  | null => cases h
  | bool b => obtain rfl := Option.some.inj h; simp [Values.of, Values.push]
  | i64 i => obtain rfl := Option.some.inj h; simp [Values.of, Values.push]
  | f64 x => obtain rfl := Option.some.inj h; simp [Values.of, Values.push]
  | str s => obtain rfl := Option.some.inj h; simp [Values.of, Values.push]

theorem Values.of_append_null (ty : KeyType) (vs : List Value) :
    Values.of ty (vs ++ [.null]) = .of ty vs := by
  cases ty <;> simp [Values.of]

theorem KeyColumn.append_of {ty : KeyType} {vs : List Value} {v : Value} {series key : String}
    (h : v.FitsType ty) :
    (KeyColumn.of ty vs).append v series key = .ok (.of ty (vs ++ [v])) := by
  by_cases hnull : v = .null
  · subst hnull
    rw [KeyColumn.append, if_pos rfl, KeyColumn.of, KeyColumn.of, Values.of_append_null]
    simp
  · have hty := h.resolve_left hnull
    rw [KeyColumn.append, if_neg hnull, KeyColumn.of, Values.push_of hty]
    simp [KeyColumn.of, hnull]

theorem appendKeys_keyColumns {series : String} {keyDefs : List KeyDef} {rows : List (List Value)}
    {keys : List Value} (h : KeysFit keyDefs keys) :
    RowBuilder.appendKeys series (keyColumns keyDefs rows) (keyDefs.map KeyDef.name) keys =
      (keyColumns keyDefs (rows ++ [keys]), none) := by
  induction h generalizing rows with
  | nil => rfl
  | @cons k v ks vs hv _ ih =>
    rw [keyColumns, List.map_cons, RowBuilder.appendKeys, KeyColumn.append_of hv]
    simp only [ih, keyColumns, List.map_append, List.map_singleton, List.headD_cons, List.tail_cons]

theorem length_keyColumns (keyDefs : List KeyDef) (rows : List (List Value)) :
    (keyColumns keyDefs rows).length = keyDefs.length := by
  induction keyDefs generalizing rows with
  | nil => rfl
  | cons k ks ih => rw [keyColumns, List.length_cons, ih, List.length_cons]

private theorem keyColumns_nil (keyDefs : List KeyDef) :
    keyColumns keyDefs [] = keyDefs.map fun k ↦ ⟨.empty k.ty, []⟩ := by
  induction keyDefs with
  | nil => rfl
  | cons k ks ih =>
    rw [keyColumns, List.map_cons, List.map_nil, List.map_nil, ih]
    cases hty : k.ty <;> rfl

theorem RowBuilder.new_eq (series : String) (keyDefs : List KeyDef) :
    RowBuilder.new series keyDefs = Columns.of series keyDefs [] := by
  simp only [RowBuilder.new, Columns.of, List.map_nil, keyColumns_nil, List.flatMap_nil,
    List.length_nil]

theorem kept_eq_canonicalExtra (extra : List (String × String)) :
    (if isCanonical extra then extra else canonicalExtra extra) = canonicalExtra extra := by
  split_ifs with h
  · exact (canonicalExtra_eq_self h).symm
  · rfl

/-- **Appending a row that fits the schema** extends the layout by that row, or is refused because
the timestamp is past the largest signed one. -/
theorem RowBuilder.append_of {series : String} {keyDefs : List KeyDef} {rows : List FileRow}
    {r : RecordRef} (h : KeysFit keyDefs r.keys) :
    RowBuilder.append r.ts r.id r.keys r.extra r.data (.of series keyDefs rows) =
      if 2 ^ 63 ≤ r.ts.toNat then
        .error (.config (.tsTooLarge r.ts)) (.of series keyDefs rows)
      else
        .ok () (.of series keyDefs (rows ++ [r.fileRow])) := by
  have hlen : r.keys.length = (Columns.of series keyDefs rows).keys.length := by
    rw [Columns.of, length_keyColumns]
    exact h.length_eq.symm
  rw [RowBuilder.append, if_neg (not_ne_iff.2 hlen)]
  refine if_congr Iff.rfl rfl ?_
  simp only [Columns.of, appendKeys_keyColumns h, kept_eq_canonicalExtra, List.map_append,
    List.map_singleton, List.flatMap_append, List.flatMap_singleton, List.length_append,
    List.length_singleton, RecordRef.fileRow]

/-! ## Reading the rows back -/

/-- The values of a column row by row, following the definition levels. -/
def readLevels : List ℕ → List Value → List Value
  | [], _ => []
  | 0 :: ds, vs => .null :: readLevels ds vs
  | _ :: ds, v :: vs => v :: readLevels ds vs
  | _ :: _, [] => []

/-- The key lists of `n` rows, one column at a time. -/
def readKeys (n : ℕ) : List KeyColumn → List (List Value)
  | [] => List.replicate n []
  | c :: cs => List.zipWith List.cons (readLevels c.defs c.vals.toList) (readKeys n cs)

/-- Cut a flattened list by the counts of its rows. -/
def readCounts {α : Type} : List ℕ → List α → List (List α)
  | [], _ => []
  | n :: ns, xs => xs.take n :: readCounts ns (xs.drop n)

/-- Put the columns of rows back together. -/
def zipRows : List Int64 → List String → List (List Value) → List (List (String × String)) →
    List String → List FileRow
  | t :: ts, i :: ids, k :: ks, e :: es, d :: ds => ⟨t, i, k, e, d⟩ :: zipRows ts ids ks es ds
  | _, _, _, _, _ => []

/-- The rows a reader rebuilds from the columns. -/
def Columns.toRows (c : Columns) : List FileRow :=
  zipRows c.ts c.id (readKeys c.rows c.keys)
    (readCounts c.extraCounts (c.extraKeys.zip c.extraValues)) c.data

private theorem readLevels_of {ty : KeyType} {vs : List Value} (h : ∀ v ∈ vs, v.FitsType ty) :
    readLevels (KeyColumn.of ty vs).defs (KeyColumn.of ty vs).vals.toList = vs := by
  induction vs with
  | nil => cases ty <;> rfl
  | cons v vs ih =>
    rw [List.forall_mem_cons] at h
    have hih := ih h.2
    rcases h.1 with rfl | hty
    · cases ty <;> simpa [KeyColumn.of, Values.of, readLevels] using hih
    · cases v with
      | null => cases hty
      | bool b =>
        obtain rfl := Option.some.inj hty
        simpa [KeyColumn.of, Values.of, Values.toList, readLevels] using hih
      | i64 i =>
        obtain rfl := Option.some.inj hty
        simpa [KeyColumn.of, Values.of, Values.toList, readLevels] using hih
      | f64 x =>
        obtain rfl := Option.some.inj hty
        simpa [KeyColumn.of, Values.of, Values.toList, readLevels] using hih
      | str s =>
        obtain rfl := Option.some.inj hty
        simpa [KeyColumn.of, Values.of, Values.toList, readLevels] using hih

/-- Every row is a first value of the column's type and a rest that fits the other columns. -/
theorem keysFit_cons {k : KeyDef} {ks : List KeyDef} {rows : List (List Value)}
    (h : ∀ keys ∈ rows, KeysFit (k :: ks) keys) :
    (∀ v ∈ rows.map (·.headD .null), v.FitsType k.ty) ∧
      (∀ keys ∈ rows.map List.tail, KeysFit ks keys) ∧
      ∀ keys ∈ rows, keys.headD .null :: keys.tail = keys := by
  have hrow : ∀ keys ∈ rows, ∃ v vs, keys = v :: vs ∧ v.FitsType k.ty ∧ KeysFit ks vs := by
    intro keys hkeys
    obtain ⟨v, vs, hv, hvs, rfl⟩ := List.forall₂_cons_left_iff.1 (h keys hkeys)
    exact ⟨v, vs, rfl, hv, hvs⟩
  refine ⟨?_, ?_, ?_⟩
  · intro v hv
    obtain ⟨keys, hkeys, rfl⟩ := List.mem_map.1 hv
    obtain ⟨v, vs, rfl, hfit, -⟩ := hrow keys hkeys
    exact hfit
  · intro tail htail
    obtain ⟨keys, hkeys, rfl⟩ := List.mem_map.1 htail
    obtain ⟨v, vs, rfl, -, hfit⟩ := hrow keys hkeys
    exact hfit
  · intro keys hkeys
    obtain ⟨v, vs, rfl, -⟩ := hrow keys hkeys
    rfl

private theorem readKeys_keyColumns {keyDefs : List KeyDef} {rows : List (List Value)}
    (h : ∀ keys ∈ rows, KeysFit keyDefs keys) :
    readKeys rows.length (keyColumns keyDefs rows) = rows := by
  induction keyDefs generalizing rows with
  | nil =>
    rw [keyColumns, readKeys]
    refine (List.eq_replicate_iff.2 ⟨rfl, fun keys hkeys ↦ ?_⟩).symm
    exact List.forall₂_nil_left_iff.1 (h keys hkeys)
  | cons k ks ih =>
    obtain ⟨hheads, htails, hrow⟩ := keysFit_cons h
    have hrest := ih htails
    rw [List.length_map] at hrest
    rw [keyColumns, readKeys, readLevels_of hheads, hrest, List.zipWith_map]
    have hself :
        List.zipWith (fun a b : List Value ↦ a.headD .null :: b.tail) rows rows = rows := by
      rw [List.zipWith_self]
      exact (List.map_congr_left hrow).trans (List.map_id rows)
    exact hself

private theorem readCounts_flatMap {α β : Type} (f : α → List β) (l : List α) :
    readCounts (l.map fun a ↦ (f a).length) (l.flatMap f) = l.map f := by
  induction l with
  | nil => rfl
  | cons a l ih =>
    rw [List.map_cons, List.flatMap_cons, readCounts, List.take_left, List.drop_left, ih,
      List.map_cons]

theorem zipRows_map (rows : List FileRow) :
    zipRows (rows.map FileRow.ts) (rows.map FileRow.id) (rows.map FileRow.keys)
      (rows.map FileRow.extra) (rows.map FileRow.data) = rows := by
  induction rows with
  | nil => rfl
  | cons r rows ih => rw [List.map_cons, List.map_cons, List.map_cons, List.map_cons, List.map_cons,
      zipRows, ih]

/-- **Reading back.** The columns of rows that fit the schema hold exactly those rows. -/
theorem Columns.toRows_of {series : String} {keyDefs : List KeyDef} {rows : List FileRow}
    (h : ∀ r ∈ rows, KeysFit keyDefs r.keys) : (Columns.of series keyDefs rows).toRows = rows := by
  have hfit : ∀ keys ∈ rows.map FileRow.keys, KeysFit keyDefs keys := by simpa using h
  have hkeys := readKeys_keyColumns hfit
  rw [List.length_map] at hkeys
  have hpairs : ((rows.flatMap FileRow.extra).map Prod.fst).zip
      ((rows.flatMap FileRow.extra).map Prod.snd) = rows.flatMap FileRow.extra := by
    rw [List.zip_map', List.map_id'']
    exact fun _ ↦ rfl
  simp only [Columns.toRows, Columns.of, hkeys, hpairs, readCounts_flatMap, zipRows_map]

end Orc
