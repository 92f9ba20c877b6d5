import Orc.Flush.Extra
import Orc.Format.Packed

/-!
# The buffers behind the columns

`RowBuilder` keeps a string column as one buffer of bytes with end offsets, counts the map entries
of a row in a `u32`, and sorts them through indices of that type. `Buffer.RowBuilder.append` is the
call with these representations; it extends column after column, so that a row refused half way has
left something behind. The scratch of indices is cleared before each use and is not kept.

Two `u32` are in the way of a row with `2 ^ 32` pairs or more. Pairs that must be sorted are reached
through indices below their number as a `u32`, so the others are lost. Pairs that are canonical are
all pushed, but their number is counted by a `u32` that wraps, as release builds do: the columns of
the map then hold pairs that no row counts.

## Against rows

`Held` is what the columns hold, in terms of rows: a row has as many pairs as are counted for it,
taken from those that no row before it has, and what is left over is `spare`. A call extends these
(`append_of`). The columns are aligned exactly when nothing is spare (`aligned_of_iff`), and as long
as every number fits, the rows held are the rows appended (`foldl_push_of_countable`).

There are thus three levels: buffers as the source has them, columns as lists of values
(`Orc.Flush.Columns`), and rows. Packing leads from the second to the first and loses nothing
(`append_pack`), so the results about columns hold of the buffers as they stand. The step from rows
to columns is where the counts matter; `Held` describes columns in which one has wrapped before.
-/

namespace Orc

open Bytes Format

namespace Buffer

/-! ## The schema -/

/-- The physical types of Parquet that are used. -/
inductive Physical where
  | boolean
  | int64
  | double
  | byteArray
  deriving DecidableEq, Repr

/-- A leaf column of the schema, with its largest levels. -/
structure Leaf where
  path : List String
  physical : Physical
  maxDef : ℕ := 0
  maxRep : ℕ := 0
  deriving DecidableEq, Repr

def physical : KeyType → Physical
  | .bool => .boolean
  | .i64 => .int64
  | .f64 => .double
  | .str => .byteArray

/-- The leaf columns of a file: declared keys are optional, and `extra` is a map whose values are
optional. -/
def parquetSchema (keys : List KeyDef) : List Leaf :=
  { path := ["ts"], physical := .int64 } :: { path := ["id"], physical := .byteArray } ::
    (keys.map fun k ↦ { path := [k.name], physical := physical k.ty, maxDef := 1 }) ++
    [{ path := ["extra", "key_value", "key"], physical := .byteArray, maxDef := 1, maxRep := 1 },
      { path := ["extra", "key_value", "value"], physical := .byteArray, maxDef := 2, maxRep := 1 },
      { path := ["data"], physical := .byteArray }]

/-! ## Columns -/

/-- A string column: all bytes in one buffer plus end offsets. -/
abbrev StrColumn := Packed UInt8

def StrColumn.push (c : StrColumn) (s : String) : StrColumn := Packed.push c (utf8 s)

/-- The present values of one key column, in its declared type. -/
inductive Values where
  | bool (xs : List Bool)
  | i64 (xs : List Int64)
  | f64 (xs : List UInt64)
  | str (xs : StrColumn)
  deriving DecidableEq, Repr

namespace Values

def empty : KeyType → Values
  | .bool => bool []
  | .i64 => i64 []
  | .f64 => f64 []
  | .str => str {}

def keyType : Values → KeyType
  | bool _ => .bool
  | i64 _ => .i64
  | f64 _ => .f64
  | str _ => .str

def push : Values → Value → Option Values
  | bool xs, .bool x => some (bool (xs ++ [x]))
  | i64 xs, .i64 x => some (i64 (xs ++ [x]))
  | f64 xs, .f64 x => some (f64 (xs ++ [x]))
  | str xs, .str x => some (str (StrColumn.push xs x))
  | _, _ => none

def clear : Values → Values
  | bool _ => bool []
  | i64 _ => i64 []
  | f64 _ => f64 []
  | str _ => str {}

end Values

/-- One declared key column: a definition level per row (1 present, 0 null) and values for present
rows only. -/
structure KeyColumn where
  vals : Values
  defs : List ℕ
  deriving DecidableEq, Repr

def KeyColumn.append (c : KeyColumn) (v : Value) (series key : String) : Except Error KeyColumn :=
  if v = .null then
    .ok { c with defs := c.defs ++ [0] }
  else
    match c.vals.push v with
    | some vals => .ok ⟨vals, c.defs ++ [1]⟩
    | none => .error (.typeMismatch series key c.vals.keyType v.keyType)

/-- Accumulated rows for one `(series, epoch)`. -/
structure Columns where
  series : String
  schema : List Leaf
  keyNames : List String
  rows : ℕ := 0
  ts : List Int64 := []
  id : StrColumn := {}
  keys : List KeyColumn
  /-- Flattened map entries plus a count per row. -/
  extraKeys : StrColumn := {}
  extraValues : StrColumn := {}
  extraCounts : List ℕ := []
  data : StrColumn := {}
  deriving DecidableEq, Repr

/-! ## The builder -/

namespace RowBuilder

def new (series : String) (keyDefs : List KeyDef) : Columns :=
  { series, schema := parquetSchema keyDefs, keyNames := keyDefs.map KeyDef.name,
    keys := keyDefs.map fun k ↦ ⟨.empty k.ty, []⟩ }

/-- The loop over the key columns, which stops at the first value refused. -/
def appendKeys (series : String) :
    List KeyColumn → List String → List Value → List KeyColumn × Option Error
  | c :: cs, name :: names, v :: vs =>
    match c.append v series name with
    | .error e => (c :: cs, some e)
    | .ok c' => (c' :: (appendKeys series cs names vs).1, (appendKeys series cs names vs).2)
  | cs, _, _ => (cs, none)

/-- The pairs pushed. The indices sorted are those below the count of pairs as a `u32`. -/
def kept (sort : IndexSort) (extra : List (String × String)) : List (String × String) :=
  if isCanonical extra then extra
  else (collapse extra (sort extra (List.range (extra.length % 2 ^ 32)))).map (pairAt extra)

/-- Append one row: what the call returns, and the columns as it leaves them. -/
def append (sort : IndexSort) (r : Row) (c : Columns) : Except Error Unit × Columns :=
  if r.keys.length ≠ c.keys.length then
    (.error (.keyArity c.series c.keys.length r.keys.length), c)
  else if 2 ^ 63 ≤ r.ts.toNat then
    (.error (.config (.tsTooLarge r.ts)), c)
  else
    let (keys, refused) := appendKeys c.series c.keys c.keyNames r.keys
    let c := { c with ts := c.ts ++ [r.ts.toInt64], id := StrColumn.push c.id r.id, keys }
    match refused with
    | some e => (.error e, c)
    | none =>
      let pairs := kept sort r.extra
      (.ok (), { c with
        extraKeys := (pairs.map Prod.fst).foldl StrColumn.push c.extraKeys
        extraValues := (pairs.map Prod.snd).foldl StrColumn.push c.extraValues
        -- the counter is a u32
        extraCounts := c.extraCounts ++ [pairs.length % 2 ^ 32]
        data := StrColumn.push c.data r.data
        rows := c.rows + 1 })

/-- Drop every accumulated row. -/
def clear (c : Columns) : Columns :=
  { c with
    rows := 0
    ts := []
    id := {}
    keys := c.keys.map fun k ↦ ⟨k.vals.clear, []⟩
    extraKeys := {}
    extraValues := {}
    extraCounts := []
    data := {} }

end RowBuilder

/-! ## The pairs of a row -/

theorem RowBuilder.kept_eq {sort : IndexSort} (hsort : sort.Lawful)
    (extra : List (String × String)) :
    RowBuilder.kept sort extra =
      if isCanonical extra then extra else canonicalExtra (extra.take (extra.length % 2 ^ 32)) := by
  have htake : ∀ n ≤ extra.length, (List.range n).map (pairAt extra) = extra.take n := by
    intro n hn
    conv_rhs => rw [← map_pairAt_range extra]
    rw [← List.map_take, List.take_range, Nat.min_eq_left hn]
  rw [RowBuilder.kept, map_collapse_sort_indices hsort, htake _ (Nat.mod_le _ _)]

theorem RowBuilder.kept_of_lt {sort : IndexSort} (hsort : sort.Lawful)
    {extra : List (String × String)} (h : extra.length < 2 ^ 32) :
    RowBuilder.kept sort extra = canonicalExtra extra := by
  rw [RowBuilder.kept_eq hsort, Nat.mod_eq_of_lt h, List.take_length, kept_eq_canonicalExtra]

/-- Pairs that are canonical, so that all of them are pushed, and more than a `u32` counts. -/
def Uncountable (extra : List (String × String)) : Prop :=
  isCanonical extra = true ∧ 2 ^ 32 ≤ extra.length

theorem not_uncountable_of_lt {extra : List (String × String)} (h : extra.length < 2 ^ 32) :
    ¬ Uncountable extra := fun hu ↦ absurd hu.2 (Nat.not_le.2 h)

theorem RowBuilder.length_kept_lt {sort : IndexSort} (hsort : sort.Lawful)
    {extra : List (String × String)} :
    (RowBuilder.kept sort extra).length < 2 ^ 32 ↔ ¬ Uncountable extra := by
  rw [RowBuilder.kept_eq hsort, Uncountable]
  split_ifs with h
  · rw [not_and, Nat.not_le]
    exact (imp_iff_right h).symm
  · -- what is sorted is shorter than the indices reach
    have hle := length_canonicalExtra_le (extra.take (extra.length % 2 ^ 32))
    rw [List.length_take] at hle
    exact iff_of_true (by omega) fun hu ↦ h hu.1

/-! ## Packing -/

/-- A string column from its strings. -/
def packStr (l : List String) : StrColumn := Packed.of (l.map utf8)

theorem push_packStr (l : List String) (s : String) :
    StrColumn.push (packStr l) s = packStr (l ++ [s]) := by
  rw [StrColumn.push, packStr, Packed.push_of, packStr, List.map_append, List.map_singleton]

theorem foldl_push_packStr (l ss : List String) :
    ss.foldl StrColumn.push (packStr l) = packStr (l ++ ss) := by
  induction ss generalizing l with
  | nil => rw [List.append_nil, List.foldl_nil]
  | cons s ss ih => rw [List.foldl_cons, push_packStr, ih, List.append_assoc, List.singleton_append]

private theorem length_packStr (l : List String) : (packStr l).ends.length = l.length := by
  rw [packStr, Packed.length_ends_of, List.length_map]

def Values.pack : Orc.Values → Values
  | .bool xs => bool xs
  | .i64 xs => i64 xs
  | .f64 xs => f64 xs
  | .str xs => str (packStr xs)

theorem Values.push_pack (vals : Orc.Values) (v : Value) :
    (Values.pack vals).push v = (vals.push v).map Values.pack := by
  cases vals <;> cases v <;> simp [Values.pack, Values.push, Orc.Values.push, push_packStr]

theorem Values.keyType_pack (vals : Orc.Values) : (Values.pack vals).keyType = vals.keyType := by
  cases vals <;> rfl

theorem Values.pack_empty (ty : KeyType) : Values.pack (.empty ty) = .empty ty := by
  cases ty <;> rfl

def KeyColumn.pack (c : Orc.KeyColumn) : KeyColumn := ⟨.pack c.vals, c.defs⟩

theorem KeyColumn.append_pack (c : Orc.KeyColumn) (v : Value) (series key : String) :
    (KeyColumn.pack c).append v series key = (c.append v series key).map KeyColumn.pack := by
  rw [KeyColumn.append, Orc.KeyColumn.append]
  split_ifs
  · rfl
  · rw [KeyColumn.pack, Values.push_pack, Values.keyType_pack]
    cases c.vals.push v <;> rfl

/-- The representation of columns kept as lists. -/
def Columns.pack (schema : List Leaf) (c : Orc.Columns) : Columns where
  series := c.series
  schema := schema
  keyNames := c.keyNames
  rows := c.rows
  ts := c.ts
  id := packStr c.id
  keys := c.keys.map KeyColumn.pack
  extraKeys := packStr c.extraKeys
  extraValues := packStr c.extraValues
  extraCounts := c.extraCounts.map (· % 2 ^ 32)
  data := packStr c.data

namespace RowBuilder

private theorem new_eq (series : String) (keyDefs : List KeyDef) :
    new series keyDefs = .pack (parquetSchema keyDefs) (Orc.RowBuilder.new series keyDefs) := by
  simp only [new, Orc.RowBuilder.new, Columns.pack, List.map_map]
  congr 1
  exact List.map_congr_left fun k _ ↦ by
    rw [Function.comp_apply, KeyColumn.pack, Values.pack_empty]

theorem appendKeys_pack (series : String) (cs : List Orc.KeyColumn) (names : List String)
    (vs : List Value) :
    appendKeys series (cs.map KeyColumn.pack) names vs =
      ((Orc.RowBuilder.appendKeys series cs names vs).1.map KeyColumn.pack,
        (Orc.RowBuilder.appendKeys series cs names vs).2) := by
  induction cs generalizing names vs with
  | nil => cases names <;> cases vs <;> rfl
  | cons c cs ih =>
    cases names with
    | nil => rfl
    | cons name names =>
      cases vs with
      | nil => rfl
      | cons v vs =>
        rw [List.map_cons, appendKeys, KeyColumn.append_pack, Orc.RowBuilder.appendKeys]
        cases c.append v series name with
        | error e => rfl
        | ok c' =>
          dsimp only [Except.map]
          rw [ih, List.map_cons]

/-- What a call on lists leaves, as buffers. -/
def packed (schema : List Leaf) :
    EStateM.Result Error Orc.Columns Unit → Except Error Unit × Columns
  | .ok () c => (.ok (), .pack schema c)
  | .error e c => (.error e, .pack schema c)

/-- **A call on the buffers** is the call on the lists. -/
theorem append_pack {sort : IndexSort} (hsort : sort.Lawful) (schema : List Leaf) {r : Row}
    (c : Orc.Columns) (h : r.extra.length < 2 ^ 32) :
    append sort r (.pack schema c) =
      packed schema (Orc.RowBuilder.append r.ts r.id r.keys r.extra r.data c) := by
  rw [append, Orc.RowBuilder.append, kept_eq_canonicalExtra, kept_of_lt hsort h]
  simp only [Columns.pack, List.length_map, appendKeys_pack]
  split_ifs
  · rfl
  · rfl
  · cases (Orc.RowBuilder.appendKeys c.series c.keys c.keyNames r.keys).2 with
    | some e => simp only [push_packStr, packed, Columns.pack]
    | none =>
      simp only [push_packStr, foldl_push_packStr, packed, Columns.pack, List.map_append,
        List.map_singleton]

end RowBuilder

/-! ## The rows held -/

/-- Rows as the columns hold them, and the pairs that no row counts. -/
structure Held where
  rows : List FileRow := []
  spare : List (String × String) := []
  deriving DecidableEq

/-- A row takes as many pairs as are counted for it. They are the next ones in the columns, which
are its own only if nothing is spare. -/
def Held.push (sort : IndexSort) (s : Held) (r : Row) : Held :=
  let pairs := s.spare ++ RowBuilder.kept sort r.extra
  let count := (RowBuilder.kept sort r.extra).length % 2 ^ 32
  ⟨s.rows ++ [⟨r.ts.toInt64, r.id, r.keys, pairs.take count, r.data⟩], pairs.drop count⟩

/-- The row that is stored for the arguments of a call, if all its pairs are counted. -/
def stored (sort : IndexSort) (r : Row) : FileRow :=
  ⟨r.ts.toInt64, r.id, r.keys, RowBuilder.kept sort r.extra, r.data⟩

/-- The buffers that hold these rows. -/
def Columns.of (series : String) (keyDefs : List KeyDef) (s : Held) : Columns :=
  { Columns.pack (parquetSchema keyDefs) (.of series keyDefs s.rows) with
    extraKeys := packStr ((s.rows.flatMap FileRow.extra ++ s.spare).map Prod.fst)
    extraValues := packStr ((s.rows.flatMap FileRow.extra ++ s.spare).map Prod.snd) }

theorem Held.push_of_countable {sort : IndexSort} (hsort : sort.Lawful) (rows : List FileRow)
    {r : Row} (h : ¬ Uncountable r.extra) :
    Held.push sort ⟨rows, []⟩ r = ⟨rows ++ [stored sort r], []⟩ := by
  have hcount := Nat.mod_eq_of_lt ((RowBuilder.length_kept_lt hsort).2 h)
  rw [Held.push, hcount, List.nil_append, List.take_length, List.drop_length]
  rfl

theorem Held.foldl_push_of_countable {sort : IndexSort} (hsort : sort.Lawful) {rows : List FileRow}
    {calls : List Row} (h : ∀ r ∈ calls, ¬ Uncountable r.extra) :
    calls.foldl (Held.push sort) ⟨rows, []⟩ = ⟨rows ++ calls.map (stored sort), []⟩ := by
  induction calls generalizing rows with
  | nil => rw [List.foldl_nil, List.map_nil, List.append_nil]
  | cons r calls ih =>
    rw [List.forall_mem_cons] at h
    rw [List.foldl_cons, push_of_countable hsort rows h.1, ih h.2, List.map_cons, List.append_assoc,
      List.singleton_append]

theorem length_counted {α : Type} (xs ys : List α) (m : ℕ) :
    ((xs ++ ys).take (ys.length % m)).length = ys.length % m := by
  have hle := Nat.mod_le ys.length m
  rw [List.length_take, List.length_append]
  omega

/-- The pairs of a row held fit its count. -/
theorem Held.push_count (sort : IndexSort) (r : Row) {s : Held}
    (h : ∀ r' ∈ s.rows, r'.extra.length < 2 ^ 32) :
    ∀ r' ∈ (s.push sort r).rows, r'.extra.length < 2 ^ 32 := by
  rw [Held.push, List.forall_mem_append, List.forall_mem_singleton, length_counted]
  exact ⟨h, Nat.mod_lt _ (by decide)⟩

namespace RowBuilder

variable {sort : IndexSort} {series : String} {keyDefs : List KeyDef} {s : Held} {r : Row}

theorem new_eq_of (series : String) (keyDefs : List KeyDef) :
    new series keyDefs = .of series keyDefs {} := by
  rw [new_eq, Orc.RowBuilder.new_eq]
  rfl

theorem length_keys_of : (Columns.of series keyDefs s).keys.length = keyDefs.length :=
  (List.length_map _).trans (length_keyColumns keyDefs _)

private theorem append_refused (h : r.keys.length ≠ keyDefs.length ∨ 2 ^ 63 ≤ r.ts.toNat) :
    ∃ e, append sort r (.of series keyDefs s) = (.error e, .of series keyDefs s) := by
  rw [append, length_keys_of]
  by_cases harity : r.keys.length = keyDefs.length
  · rw [if_neg (not_ne_iff.2 harity), if_pos (h.resolve_left (not_ne_iff.2 harity))]
    exact ⟨_, rfl⟩
  · rw [if_pos harity]
    exact ⟨_, rfl⟩

/-- **A call whose keys fit the schema** adds a row. -/
theorem append_of (hfit : KeysFit keyDefs r.keys) (hts : r.ts.toNat < 2 ^ 63) :
    append sort r (.of series keyDefs s) = (.ok (), .of series keyDefs (s.push sort r)) := by
  have hkeys : appendKeys (Columns.of series keyDefs s).series (Columns.of series keyDefs s).keys
      (Columns.of series keyDefs s).keyNames r.keys =
      ((keyColumns keyDefs (s.rows.map FileRow.keys ++ [r.keys])).map KeyColumn.pack, none) := by
    rw [Columns.of, Columns.pack, appendKeys_pack, Orc.Columns.of, appendKeys_keyColumns hfit]
  rw [append, length_keys_of, if_neg (not_ne_iff.2 hfit.length_eq.symm), if_neg (Nat.not_le.2 hts)]
  simp only [hkeys]
  simp only [Columns.of, Columns.pack, Orc.Columns.of, Held.push, push_packStr, foldl_push_packStr,
    List.map_append, List.map_singleton, List.flatMap_append, List.flatMap_singleton,
    List.length_append, List.length_singleton, length_counted, Nat.mod_mod, List.append_assoc]
  -- the pairs in the columns are those there were, and then those kept of the row
  simp only [← List.map_append, List.take_append_drop]

end RowBuilder

end Buffer

/-! ## Values of another type -/

theorem KeyColumn.append_mismatch {ty : KeyType} {vs : List Value} {v : Value}
    {series key : String} (h : ¬ v.FitsType ty) :
    ∃ e, (KeyColumn.of ty vs).append v series key = .error e := by
  have hnull : v ≠ .null := fun heq ↦ h (.inl heq)
  have hpush : (Values.of ty vs).push v = none := by
    cases ty <;> cases v <;> first | rfl | exact absurd (Or.inr rfl) h
  rw [KeyColumn.append, if_neg hnull, KeyColumn.of, hpush]
  exact ⟨_, rfl⟩

private theorem appendKeys_mismatch {series : String} {keyDefs : List KeyDef}
    {rows : List (List Value)}
    {keys : List Value} (hlen : keys.length = keyDefs.length) (h : ¬ KeysFit keyDefs keys) :
    ∃ e, (RowBuilder.appendKeys series (keyColumns keyDefs rows) (keyDefs.map KeyDef.name) keys).2 =
      some e := by
  induction keyDefs generalizing rows keys with
  | nil =>
    rw [List.length_eq_zero_iff.1 hlen] at h
    exact absurd List.Forall₂.nil h
  | cons k ks ih =>
    obtain ⟨v, vs, rfl⟩ := List.exists_cons_of_length_eq_add_one hlen
    rw [keyColumns, List.map_cons, RowBuilder.appendKeys]
    by_cases hv : v.FitsType k.ty
    · rw [KeyColumn.append_of hv]
      exact ih (Nat.succ.inj hlen) fun hvs ↦ h (.cons hv hvs)
    · obtain ⟨e, he⟩ : ∃ e, (KeyColumn.of k.ty (rows.map (·.headD .null))).append v series k.name =
          .error e := KeyColumn.append_mismatch hv
      rw [he]
      exact ⟨e, rfl⟩

namespace Buffer

namespace RowBuilder

variable {sort : IndexSort} {series : String} {keyDefs : List KeyDef} {s : Held} {r : Row}

/-- Arguments that pass the first checks of a call, and then fail at a key. -/
def Mismatched (keyDefs : List KeyDef) (r : Row) : Prop :=
  r.keys.length = keyDefs.length ∧ r.ts.toNat < 2 ^ 63 ∧ ¬ KeysFit keyDefs r.keys

theorem append_mismatch (h : Mismatched keyDefs r) :
    ∃ e c, append sort r (.of series keyDefs s) = (.error e, c) ∧ c ≠ .of series keyDefs s := by
  obtain ⟨hlen, hts, hfit⟩ := h
  obtain ⟨e, hkeys⟩ : ∃ e, (appendKeys (Columns.of series keyDefs s).series
      (Columns.of series keyDefs s).keys (Columns.of series keyDefs s).keyNames
      r.keys).2 = some e := by
    rw [Columns.of, Columns.pack, appendKeys_pack]
    exact appendKeys_mismatch hlen hfit
  rw [append, length_keys_of, if_neg (not_ne_iff.2 hlen), if_neg (Nat.not_le.2 hts)]
  simp only [hkeys]
  refine ⟨e, _, rfl, fun heq ↦ ?_⟩
  have hts' := congrArg (fun c ↦ c.ts.length) heq
  simp at hts'

/-- Arguments that a call accepts. -/
structure Accepted (keyDefs : List KeyDef) (r : Row) : Prop where
  fit : KeysFit keyDefs r.keys
  ts : r.ts.toNat < 2 ^ 63

theorem append_cases (sort : IndexSort) (series : String) (s : Held) (h : ¬ Mismatched keyDefs r) :
    ¬ Accepted keyDefs r ∧
        (∃ e, append sort r (.of series keyDefs s) = (.error e, .of series keyDefs s)) ∨
      Accepted keyDefs r ∧
        append sort r (.of series keyDefs s) = (.ok (), .of series keyDefs (s.push sort r)) := by
  by_cases hrefused : r.keys.length ≠ keyDefs.length ∨ 2 ^ 63 ≤ r.ts.toNat
  · refine .inl ⟨fun haccepted ↦ ?_, append_refused hrefused⟩
    rcases hrefused with hlen | hts
    · exact hlen haccepted.fit.length_eq.symm
    · exact absurd haccepted.ts (Nat.not_lt.2 hts)
  · obtain ⟨hlen, hts⟩ := not_or.1 hrefused
    rw [not_ne_iff] at hlen
    rw [Nat.not_le] at hts
    have hfit : KeysFit keyDefs r.keys := by
      by_contra hfit
      exact h ⟨hlen, hts, hfit⟩
    exact .inr ⟨⟨hfit, hts⟩, append_of hfit hts⟩

theorem append_eq_ok_iff {c : Columns} :
    append sort r (.of series keyDefs s) = (.ok (), c) ↔
      Accepted keyDefs r ∧ c = .of series keyDefs (s.push sort r) := by
  constructor
  · intro h
    by_cases hr : Mismatched keyDefs r
    · obtain ⟨e, c', hcall, -⟩ : ∃ e c', append sort r (.of series keyDefs s) =
          (.error e, c') ∧ c' ≠ .of series keyDefs s := append_mismatch hr
      cases hcall.symm.trans h
    · rcases append_cases sort series s hr with ⟨-, e, hcall⟩ | ⟨haccepted, hcall⟩
      · cases hcall.symm.trans h
      · cases hcall.symm.trans h
        exact ⟨haccepted, rfl⟩
  · rintro ⟨h, rfl⟩
    exact append_of h.fit h.ts

end RowBuilder

/-! ## Alignment -/

/-- Every column has an entry per row, and the map columns one per pair counted. -/
structure Columns.Aligned (c : Columns) : Prop where
  ts : c.ts.length = c.rows
  id : c.id.ends.length = c.rows
  data : c.data.ends.length = c.rows
  extraCounts : c.extraCounts.length = c.rows
  keys : ∀ k ∈ c.keys, k.defs.length = c.rows
  extraKeys : c.extraKeys.ends.length = c.extraCounts.sum
  extraValues : c.extraValues.ends.length = c.extraCounts.sum

private theorem length_defs_keyColumns {keyDefs : List KeyDef} {rows : List (List Value)} :
    ∀ k ∈ keyColumns keyDefs rows, k.defs.length = rows.length := by
  induction keyDefs generalizing rows with
  | nil => simp [keyColumns]
  | cons k ks ih =>
    rw [keyColumns, List.forall_mem_cons]
    refine ⟨by simp [KeyColumn.of], fun c hc ↦ ?_⟩
    rw [ih c hc, List.length_map]

/-- The counts of rows whose pairs fit them. -/
theorem Columns.extraCounts_of {series : String} {keyDefs : List KeyDef} {s : Held}
    (h : ∀ r ∈ s.rows, r.extra.length < 2 ^ 32) :
    (Columns.of series keyDefs s).extraCounts = s.rows.map fun r ↦ r.extra.length := by
  refine (List.map_map ..).trans (List.map_congr_left fun r hr ↦ ?_)
  exact Nat.mod_eq_of_lt (h r hr)

/-- **Alignment** is that no pair is spare. -/
theorem Columns.aligned_of_iff (series : String) (keyDefs : List KeyDef) {s : Held}
    (h : ∀ r ∈ s.rows, r.extra.length < 2 ^ 32) :
    (Columns.of series keyDefs s).Aligned ↔ s.spare = [] := by
  have hpairs : ∀ f : String × String → String,
      (packStr ((s.rows.flatMap FileRow.extra ++ s.spare).map f)).ends.length =
        (Columns.of series keyDefs s).extraCounts.sum + s.spare.length := fun f ↦ by
    rw [length_packStr, List.length_map, List.length_append, List.length_flatMap, extraCounts_of h]
  constructor
  · intro haligned
    have hsum := (hpairs Prod.fst).symm.trans haligned.extraKeys
    exact List.length_eq_zero_iff.1 (by omega)
  · intro hspare
    rw [hspare, List.length_nil, Nat.add_zero] at hpairs
    refine ⟨?_, ?_, ?_, ?_, ?_, ?_, ?_⟩
    · exact List.length_map _
    · exact (length_packStr _).trans (List.length_map _)
    · exact (length_packStr _).trans (List.length_map _)
    · exact (List.length_map _).trans (List.length_map _)
    · intro k hk
      obtain ⟨c, hc, rfl⟩ := List.mem_map.1 hk
      exact (length_defs_keyColumns c hc).trans (List.length_map _)
    · rw [← hspare] at hpairs
      exact hpairs Prod.fst
    · rw [← hspare] at hpairs
      exact hpairs Prod.snd

/-- The columns are aligned before and after each call, and as they were after a refused one. -/
def RowBuilder.StaysAligned (sort : IndexSort) : List Row → Columns → Prop
  | [], c => c.Aligned
  | r :: rest, c => c.Aligned ∧ ∀ result c', append sort r c = (result, c') →
      (∀ e, result = .error e → c' = c) ∧ RowBuilder.StaysAligned sort rest c'

theorem RowBuilder.StaysAligned.aligned {sort : IndexSort} {calls : List Row} {c : Columns}
    (h : RowBuilder.StaysAligned sort calls c) : c.Aligned := by
  cases calls with
  | nil => exact h
  | cons r rest => exact h.1

/-- **Alignment of the builder.** In a sequence of calls the columns stay aligned, and are left
alone by every refused call, exactly when no call is refused at a key and no row accepted has more
pairs than its count can hold. -/
theorem builder_aligned_iff {sort : IndexSort} (hsort : sort.Lawful) {series : String}
    {keyDefs : List KeyDef} {calls : List Row} :
    RowBuilder.StaysAligned sort calls (RowBuilder.new series keyDefs) ↔
      ∀ r ∈ calls, ¬ RowBuilder.Mismatched keyDefs r ∧
        (RowBuilder.Accepted keyDefs r → ¬ Uncountable r.extra) := by
  have hstart : ∀ r ∈ ([] : List FileRow), r.extra.length < 2 ^ 32 := by simp
  rw [RowBuilder.new_eq_of]
  -- as long as the columns are aligned, they hold the rows accepted so far and no spare pair
  change RowBuilder.StaysAligned sort calls (.of series keyDefs ⟨[], []⟩) ↔ _
  generalize ([] : List FileRow) = rows at hstart ⊢
  induction calls generalizing rows with
  | nil => exact iff_of_true ((Columns.aligned_of_iff series keyDefs hstart).2 rfl) (by simp)
  | cons r rest ih =>
    rw [RowBuilder.StaysAligned, List.forall_mem_cons]
    by_cases hr : RowBuilder.Mismatched keyDefs r
    · obtain ⟨e, c', hcall, hne⟩ : ∃ e c',
        RowBuilder.append sort r (.of series keyDefs ⟨rows, []⟩) =
          (.error e, c') ∧ c' ≠ .of series keyDefs ⟨rows, []⟩ := RowBuilder.append_mismatch hr
      refine iff_of_false (fun h ↦ ?_) fun h ↦ h.1.1 hr
      exact hne ((h.2 _ _ hcall).1 e rfl)
    have haligned := (Columns.aligned_of_iff series keyDefs (s := ⟨rows, []⟩) hstart).2 rfl
    rcases RowBuilder.append_cases sort series ⟨rows, []⟩ hr with
      ⟨hrefused, e, hcall⟩ | ⟨haccepted, hcall⟩
    · rw [hcall]
      constructor
      · rintro ⟨-, hall⟩
        exact ⟨⟨hr, fun haccepted ↦ absurd haccepted hrefused⟩, (ih rows hstart).1 (hall _ _ rfl).2⟩
      · rintro ⟨-, hall⟩
        refine ⟨haligned, ?_⟩
        rintro _ _ ⟨⟩
        exact ⟨fun _ _ ↦ rfl, (ih rows hstart).2 hall⟩
    · rw [hcall]
      have hcounts := Held.push_count sort r (s := ⟨rows, []⟩) hstart
      by_cases hcount : Uncountable r.extra
      · -- the pairs past the count are spare
        refine iff_of_false (fun h ↦ ?_) fun h ↦ h.1.2 haccepted hcount
        have hspare := (Columns.aligned_of_iff series keyDefs hcounts).1 (h.2 _ _ rfl).2.aligned
        have hlen : (RowBuilder.kept sort r.extra).length ≤
            (RowBuilder.kept sort r.extra).length % 2 ^ 32 := List.drop_eq_nil_iff.1 hspare
        have hlt := Nat.mod_lt (RowBuilder.kept sort r.extra).length (show 0 < 2 ^ 32 by decide)
        exact (RowBuilder.length_kept_lt hsort).1 (by omega) hcount
      · have hpush := Held.push_of_countable hsort rows hcount
        rw [hpush] at hcounts ⊢
        constructor
        · rintro ⟨-, hall⟩
          exact ⟨⟨hr, fun _ ↦ hcount⟩, (ih _ hcounts).1 (hall _ _ rfl).2⟩
        · rintro ⟨-, hall⟩
          refine ⟨haligned, ?_⟩
          rintro _ _ ⟨⟩
          exact ⟨nofun, (ih _ hcounts).2 hall⟩

/-- A series with one declared key. -/
private def oneKey : List KeyDef := [⟨"k", .str, false⟩]

/-- A number for a string: the call is refused, and has left a timestamp and an id. -/
theorem refused_row_left_behind :
    ∃ c, RowBuilder.append insertionIndexSort ⟨7, "a", [.i64 1], [], ""⟩
        (RowBuilder.new "t" oneKey) = (.error (.typeMismatch "t" "k" .str (some .i64)), c) ∧
      c ≠ RowBuilder.new "t" oneKey ∧ c.rows = 0 ∧ c.ts = [7] := by
  refine ⟨_, rfl, ?_⟩
  decide +kernel

/-- A row accepted, and two refused before anything is pushed. -/
theorem builder_aligned_iff_refused :
    RowBuilder.StaysAligned insertionIndexSort
      [⟨7, "a", [.str "x"], [("b", "2"), ("a", "1")], ""⟩, ⟨8, "a", [], [], ""⟩,
        ⟨9223372036854775808, "a", [.null], [], ""⟩] (RowBuilder.new "t" oneKey) := by
  refine (builder_aligned_iff insertionIndexSort_lawful).2 ?_
  simp [RowBuilder.Mismatched, KeysFit, oneKey, Value.FitsType, Value.keyType, Uncountable]

end Buffer

/-! ## Pairs in frames and in files -/

theorem RowBuilder.append_extra {ts : UInt64} {id : String} {keys : List Value}
    {extra : List (String × String)} {data : String} {c c' : Columns}
    (h : RowBuilder.append ts id keys extra data c = .ok () c') :
    c'.extraKeys = c.extraKeys ++ (canonicalExtra extra).map Prod.fst ∧
      c'.extraValues = c.extraValues ++ (canonicalExtra extra).map Prod.snd ∧
      c'.extraCounts = c.extraCounts ++ [(canonicalExtra extra).length] := by
  simp only [RowBuilder.append, kept_eq_canonicalExtra] at h
  split_ifs at h
  split at h
  next => cases h
  next =>
    obtain rfl := (EStateM.Result.ok.inj h).2
    exact ⟨rfl, rfl, rfl⟩

/-- **Canonical extra, in both places.** The frame depends only on the set of extra pairs, not on
their order or repetitions nor on what the encoder has encoded before; a list already canonical is
what sorting and collapsing would make of it. The pairs decoded have strictly increasing names and
the least value of each name, re-encoding the decoded record gives the same frame, and a row of a
file built from the pairs that were encoded holds the pairs that are decoded, in the columns as
lists and in their buffers. -/
theorem extra_canonical (crc : Bytes → UInt32) {sort : IndexSort} (hsort : sort.Lawful) :
    (∀ series epoch row extra out order order', row.extra.length ≤ u16Max → extra.length ≤ u16Max →
      (∀ p, p ∈ extra ↔ p ∈ row.extra) →
      forget (Encoder.encode crc sort series epoch { row with extra } ⟨out, order'⟩) =
        forget (Encoder.encode crc sort series epoch row ⟨out, order⟩)) ∧
    (∀ extra, isCanonical extra = true →
      (collapse extra (sort extra (List.range extra.length))).map (pairAt extra) = extra) ∧
    ∀ series epoch row out order s,
      Encoder.encode crc sort series epoch row ⟨out, order⟩ = .ok () s →
      ∃ frame r, s.out = out ++ frame ∧
        (∀ maxRecordBytes rest, frame.length - frameHeaderBytes ≤ maxRecordBytes →
          decode crc (frame ++ rest) row.keys.length maxRecordBytes = .ok (r, frame.length)) ∧
        IsCanonicalForm row.extra r.extra ∧
        (∀ out order, forget (Encoder.encode crc sort series epoch r.row ⟨out, order⟩) =
          .ok () (out ++ frame)) ∧
        Buffer.RowBuilder.kept sort row.extra = r.extra ∧
        (∀ ts id keys data c c', RowBuilder.append ts id keys row.extra data c = .ok () c' →
          c'.extraKeys = c.extraKeys ++ r.extra.map Prod.fst ∧
            c'.extraValues = c.extraValues ++ r.extra.map Prod.snd ∧
            c'.extraCounts = c.extraCounts ++ [r.extra.length]) ∧
        ∀ ts id keys data schema c,
          Buffer.RowBuilder.append sort ⟨ts, id, keys, row.extra, data⟩ (.pack schema c) =
            Buffer.RowBuilder.packed schema (RowBuilder.append ts id keys row.extra data c) := by
  refine ⟨?_, fun extra hcanonical ↦ ?_, ?_⟩
  · intro series epoch row extra out order order' hlen hlen' h
    rw [Encoder.encode_out crc hsort, Encoder.encode_out crc hsort,
      encode_congr crc _ _ hlen hlen' h]
  · rw [map_collapse_sort hsort, canonicalExtra_eq_self hcanonical]
  · intro series epoch row out order s h
    have hout := Encoder.encode_out crc hsort series epoch row ⟨out, order⟩
    rw [h] at hout
    obtain ⟨⟨⟨hfits, hcount⟩, hlen⟩, hs⟩ := (encode_eq_ok crc series epoch row).1 hout.symm
    have hpairs : row.extra.length < 2 ^ 32 := Nat.lt_of_le_of_lt hcount (by decide)
    refine ⟨frameOf crc series epoch row, stamped series epoch row, hs, fun m rest hm ↦ ?_,
      isCanonicalForm_canonicalExtra row.extra, fun out order ↦ ?_,
      Buffer.RowBuilder.kept_of_lt hsort hpairs,
      fun ts id keys data c c' happend ↦ RowBuilder.append_extra happend,
      fun ts id keys data schema c ↦ Buffer.RowBuilder.append_pack hsort schema c hpairs⟩
    · rw [frameOf, length_frameBytes, Nat.add_sub_cancel_left] at hm
      exact decode_eq_ok.2
        ⟨rest, rfl, hfits, rfl, ⟨minPayloadBytes_le_length _, hm, hlen⟩, length_frameBytes _ _⟩
    · rw [Encoder.encode_out crc hsort, encode_eq_ok, Encodable, frameOf, frameOf, stamped_row]
      exact ⟨⟨⟨hfits, hfits.count⟩, hlen⟩, rfl⟩

/-- Two pairs of one name and a third, in two orders and with different scratches. -/
theorem extra_canonical_shuffled :
    forget (Encoder.encode crc32 insertionIndexSort "t" 0
        ⟨7, "", [], [("a", "1"), ("b", "2"), ("a", "1")], ""⟩ ⟨[], [5, 6]⟩) =
      forget (Encoder.encode crc32 insertionIndexSort "t" 0
        ⟨7, "", [], [("b", "2"), ("a", "1")], ""⟩ ⟨[], []⟩) :=
  (extra_canonical crc32 insertionIndexSort_lawful).1 "t" 0
    ⟨7, "", [], [("b", "2"), ("a", "1")], ""⟩ [("a", "1"), ("b", "2"), ("a", "1")] [] [] [5, 6]
    (by decide) (by decide) (by simp)

end Orc
