import Orc.Flush.Groups

/-!
# Rebuilding the rows

`readGroup` reads a row group as any reader of the format does, from the schema and the levels
alone: a required column value by value, a declared key by its definition levels, the map by
definition and repetition levels. It refuses levels and values that do not fit together, columns of
different lengths, and a group that starts inside a map.

The group of a list of rows is read as those rows (`readGroup_of`), so what is rebuilt are the rows
that the columns hold. They are the rows appended unless a number does not fit in a `u32`. The pairs
of a row that are not canonical yet are sorted through 32-bit indices, so all beyond a multiple of
2 ^ 32 are cut (`Truncated`). Pairs that are canonical are all pushed, but their count wraps
(`Uncountable`), and then the row and all rows after it in the same columns get pairs of others.
-/

namespace Orc

open Bytes Format

namespace Buffer

/-! ## Reading a group -/

def readTs : Batch → Option (List Int64)
  | ⟨.i64 xs, none, none⟩ => some xs
  | _ => none

/-- A required column of strings. -/
def readStrings : Batch → Option (List String)
  | ⟨.bytes xs, none, none⟩ => xs.mapM fromUtf8
  | _ => none

/-- The values of a batch, in the declared type. -/
def Cells.values : KeyType → Cells → Option (List Value)
  | .bool, bool xs => some (xs.map .bool)
  | .i64, i64 xs => some (xs.map .i64)
  | .f64, f64 xs => some (xs.map .f64)
  | .str, bytes xs => (xs.mapM fromUtf8).map (List.map .str)
  | _, _ => none

/-- A declared key: optional, so a value or a null for each row. -/
def readKey (ty : KeyType) : Batch → Option (List Value)
  | ⟨cells, some defs, none⟩ => do
    let values ← cells.values ty
    let xs ← readOptional 1 defs values
    return xs.map fun x ↦ x.getD .null
  | _ => none

/-- The key lists of `n` rows, one column at a time. -/
def readKeyColumns (n : ℕ) : List KeyDef → List Batch → Option (List (List Value))
  | [], [] => some (List.replicate n [])
  | k :: ks, b :: bs => do
    let column ← readKey k.ty b
    let rows ← readKeyColumns n ks bs
    if column.length = rows.length then return List.zipWith List.cons column rows else none
  | _, _ => none

/-- A column of strings below the map, whose entries are there from definition level 1 on. -/
def readMap (maxDef : ℕ) : Batch → Option (List (List (Option String)))
  | ⟨.bytes xs, some defs, some reps⟩ => do
    let values ← xs.mapM fromUtf8
    readRepeated maxDef 1 defs reps values
  | _ => none

/-- The entries of one map. -/
def pairUp : List (Option String) → List (Option String) → Option (List (String × String))
  | [], [] => some []
  | some k :: ks, some v :: vs => (pairUp ks vs).map ((k, v) :: ·)
  | _, _ => none

/-- The maps of the rows. -/
def pairRows : List (List (Option String)) → List (List (Option String)) →
    Option (List (List (String × String)))
  | [], [] => some []
  | ks :: krows, vs :: vrows => do
    let pairs ← pairUp ks vs
    let rows ← pairRows krows vrows
    return pairs :: rows
  | _, _ => none

/-- The rows of a group. -/
def readGroup (keyDefs : List KeyDef) : List Batch → Option (List FileRow)
  | ts :: id :: rest => do
    let ts ← readTs ts
    let ids ← readStrings id
    let keys ← readKeyColumns ts.length keyDefs (rest.take keyDefs.length)
    match rest.drop keyDefs.length with
    | [mapKeys, mapValues, data] => do
      let extra ← pairRows (← readMap 1 mapKeys) (← readMap 2 mapValues)
      let data ← readStrings data
      if ids.length = ts.length ∧ keys.length = ts.length ∧ extra.length = ts.length ∧
          data.length = ts.length then
        return zipRows ts ids keys extra data
      else
        none
    | _ => none
  | _ => none

/-! ## Column by column -/

theorem mapM_fromUtf8 (l : List String) : (l.map utf8).mapM fromUtf8 = some l := by
  induction l with
  | nil => rfl
  | cons s l ih =>
    rw [List.map_cons, List.mapM_cons, fromUtf8_utf8, ih]
    rfl

private theorem readStrings_of (l : List String) :
    readStrings { cells := .bytes (l.map utf8) } = some l :=
  mapM_fromUtf8 l

/-- A value, if there is one. -/
def someValue (v : Value) : Option Value := if v = .null then none else some v

private theorem getD_someValue (v : Value) : (someValue v).getD .null = v := by
  rw [someValue]
  split_ifs with h
  · exact h.symm
  · rfl

private theorem toList_of {ty : KeyType} {vs : List Value} (h : ∀ v ∈ vs, v.FitsType ty) :
    (Orc.Values.of ty vs).toList = (vs.map someValue).reduceOption := by
  have hcongr : ∀ {α : Type} (f : Value → Option α) (g : α → Value),
      (∀ v ∈ vs, (f v).map g = someValue v) →
      (vs.filterMap f).map g = (vs.map someValue).reduceOption := by
    intro α f g hfg
    rw [List.map_filterMap, List.reduceOption, List.filterMap_map]
    exact List.filterMap_congr hfg
  cases ty with
  | bool =>
    refine hcongr _ _ fun v hv ↦ ?_
    rcases h v hv with rfl | hty
    · rfl
    · cases v <;> first | rfl | cases hty
  | i64 =>
    refine hcongr _ _ fun v hv ↦ ?_
    rcases h v hv with rfl | hty
    · rfl
    · cases v <;> first | rfl | cases hty
  | f64 =>
    refine hcongr _ _ fun v hv ↦ ?_
    rcases h v hv with rfl | hty
    · rfl
    · cases v <;> first | rfl | cases hty
  | str =>
    refine hcongr _ _ fun v hv ↦ ?_
    rcases h v hv with rfl | hty
    · rfl
    · cases v <;> first | rfl | cases hty

private theorem values_toCells (ty : KeyType) (vs : List Value) :
    (Values.toCells (.of ty vs)).values ty = some (Orc.Values.of ty vs).toList := by
  cases ty with
  | bool => rfl
  | i64 => rfl
  | f64 => rfl
  | str => exact congrArg (Option.map (List.map Value.str)) (mapM_fromUtf8 _)

private theorem readKey_of {ty : KeyType} {vs : List Value} (h : ∀ v ∈ vs, v.FitsType ty) :
    readKey ty { cells := Values.toCells (.of ty vs), defs := some (vs.map keyLevel) } =
      some vs := by
  have hdefs : vs.map keyLevel = (vs.map someValue).map (defLevel 1) := by
    rw [List.map_map]
    refine List.map_congr_left fun v _ ↦ ?_
    by_cases hv : v = .null <;> simp [keyLevel, someValue, defLevel, hv]
  rw [readKey, values_toCells, toList_of h, hdefs, Option.bind_eq_bind, Option.bind_some,
    readOptional_stripe fun _ ↦ Nat.one_pos, Option.bind_eq_bind, Option.bind_some, List.map_map]
  refine congrArg some ((List.map_congr_left fun v _ ↦ ?_).trans (List.map_id vs))
  exact getD_someValue v

private theorem readKeyColumns_of {keyDefs : List KeyDef} {rows : List (List Value)}
    (h : ∀ keys ∈ rows, KeysFit keyDefs keys) :
    readKeyColumns rows.length keyDefs (keyBatches keyDefs rows) = some rows := by
  induction keyDefs generalizing rows with
  | nil =>
    refine congrArg some (List.eq_replicate_iff.2 ⟨rfl, fun keys hkeys ↦ ?_⟩).symm
    exact List.forall₂_nil_left_iff.1 (h keys hkeys)
  | cons k ks ih =>
    obtain ⟨hheads, htails, hrow⟩ := keysFit_cons h
    have hrest := ih htails
    rw [List.length_map] at hrest
    have hself : List.zipWith List.cons (rows.map (·.headD .null)) (rows.map List.tail) = rows := by
      rw [List.zipWith_map, List.zipWith_self]
      exact (List.map_congr_left hrow).trans (List.map_id rows)
    rw [keyBatches, readKeyColumns, readKey_of hheads, hrest]
    simp only [Option.bind_eq_bind, Option.bind_some, List.length_map, if_true, hself]
    rfl

private theorem readMap_of {maxDef : ℕ} (hmax : 1 ≤ maxDef) (rows : List FileRow)
    (f : String × String → String) :
    readMap maxDef (mapBatch maxDef (rows.map fun r ↦ (r.extra.map fun p ↦ utf8 (f p)).map some)) =
      some (rows.map fun r ↦ (r.extra.map f).map some) := by
  have hvalues : (stripeValues (rows.map fun r ↦ (r.extra.map fun p ↦ utf8 (f p)).map some)).mapM
      fromUtf8 = some (stripeValues (rows.map fun r ↦ (r.extra.map f).map some)) := by
    rw [stripeValues_some, stripeValues_some, ← mapM_fromUtf8, List.map_map]
    rfl
  have hdefs : stripeDefs maxDef 1 (rows.map fun r ↦ (r.extra.map fun p ↦ utf8 (f p)).map some) =
      stripeDefs maxDef 1 (rows.map fun r ↦ (r.extra.map f).map some) := by
    simp only [stripeDefs, List.flatMap_map, map_fst_slots_some, List.length_map]
  have hreps : stripeReps (rows.map fun r ↦ (r.extra.map fun p ↦ utf8 (f p)).map some) =
      stripeReps (rows.map fun r ↦ (r.extra.map f).map some) := by
    simp only [stripeReps, List.flatMap_map, recordReps_eq, List.length_map]
  rw [mapBatch, readMap, hvalues, hdefs, hreps, Option.bind_eq_bind, Option.bind_some]
  refine readRepeated_stripe Nat.one_pos hmax fun r hr hnone ↦ ?_
  obtain ⟨row, -, rfl⟩ := List.mem_map.1 hr
  simp at hnone

private theorem pairUp_of (pairs : List (String × String)) :
    pairUp ((pairs.map Prod.fst).map some) ((pairs.map Prod.snd).map some) = some pairs := by
  induction pairs with
  | nil => rfl
  | cons p pairs ih =>
    simp only [List.map_cons, pairUp, ih]
    rfl

private theorem pairRows_of (rows : List FileRow) :
    pairRows (rows.map fun r ↦ (r.extra.map Prod.fst).map some)
      (rows.map fun r ↦ (r.extra.map Prod.snd).map some) = some (rows.map FileRow.extra) := by
  induction rows with
  | nil => rfl
  | cons r rows ih =>
    rw [List.map_cons, List.map_cons, pairRows, pairUp_of, ih]
    rfl

private theorem length_keyBatches (keyDefs : List KeyDef) (rows : List (List Value)) :
    (keyBatches keyDefs rows).length = keyDefs.length := by
  induction keyDefs generalizing rows with
  | nil => rfl
  | cons k ks ih => rw [keyBatches, List.length_cons, ih, List.length_cons]

/-- **A group is read back** as the rows it was issued for. -/
theorem readGroup_of {keyDefs : List KeyDef} {rows : List FileRow}
    (h : ∀ r ∈ rows, KeysFit keyDefs r.keys) :
    readGroup keyDefs (groupOf keyDefs rows) = some rows := by
  have hkeys := readKeyColumns_of (List.forall_mem_map.2 h)
  rw [List.length_map] at hkeys
  have hids : readStrings { cells := .bytes (rows.map fun r ↦ utf8 r.id) } =
      some (rows.map FileRow.id) := by
    rw [← readStrings_of, List.map_map]
    rfl
  have hdata : readStrings { cells := .bytes (rows.map fun r ↦ utf8 r.data) } =
      some (rows.map FileRow.data) := by
    rw [← readStrings_of, List.map_map]
    rfl
  have hmap : readMap 1 (mapBatch 1 (mapKeys rows)) = _ := readMap_of (Nat.le_refl 1) rows Prod.fst
  have hmap' : readMap 2 (mapBatch 2 (mapValues rows)) = _ := readMap_of (by decide) rows Prod.snd
  have hlen := length_keyBatches keyDefs (rows.map FileRow.keys)
  rw [groupOf, List.cons_append, List.cons_append, readGroup, List.take_left' hlen,
    List.drop_left' hlen]
  simp only [readTs, hids, hdata, hmap, hmap', pairRows_of, List.length_map, hkeys,
    Option.bind_eq_bind, Option.bind_some, and_self, if_true, zipRows_map]
  rfl

/-! ## The rows appended -/

/-- The row a file should hold for the arguments of a call. -/
def fileRow (r : Row) : FileRow := ⟨r.ts.toInt64, r.id, r.keys, canonicalExtra r.extra, r.data⟩

/-- Pairs that are sorted through indices which reach too few of them. -/
def Truncated (extra : List (String × String)) : Prop :=
  isCanonical extra = false ∧
    canonicalExtra (extra.take (extra.length % 2 ^ 32)) ≠ canonicalExtra extra

private theorem not_truncated_of_lt {extra : List (String × String)} (h : extra.length < 2 ^ 32) :
    ¬ Truncated extra := by
  rintro ⟨-, hne⟩
  rw [Nat.mod_eq_of_lt h, List.take_length] at hne
  exact hne rfl

theorem stored_eq_iff {sort : IndexSort} (hsort : sort.Lawful) (r : Row) :
    stored sort r = fileRow r ↔ ¬ Truncated r.extra := by
  have hextra : stored sort r = fileRow r ↔
      RowBuilder.kept sort r.extra = canonicalExtra r.extra := by
    simp [stored, fileRow]
  rw [hextra, RowBuilder.kept_eq hsort, Truncated]
  cases hcanonical : isCanonical r.extra with
  | true => simp [canonicalExtra_eq_self hcanonical]
  | false => simp

/-- The rows rebuilt group by group from what either writer issues are the rows appended. -/
def Rebuilds (sort : IndexSort) (series : String) (keyDefs : List KeyDef) (calls : List Row)
    (c : Columns) (rowGroupRows : ℕ) : Prop :=
  ∃ (groups : List (List Batch)) (chunks : List (List FileRow)),
    c.writeFile rowGroupRows = some groups ∧
    PartitionWriter.stream sort calls (.create series keyDefs rowGroupRows) =
      some (groups, calls.length) ∧
    groups.mapM (readGroup keyDefs) = some chunks ∧ chunks.flatten = calls.map fileRow

private theorem mapM_readGroup {keyDefs : List KeyDef} {chunks : List (List FileRow)}
    (h : ∀ r ∈ chunks.flatten, KeysFit keyDefs r.keys) :
    (chunks.map (groupOf keyDefs)).mapM (readGroup keyDefs) = some chunks := by
  induction chunks with
  | nil => rfl
  | cons chunk chunks ih =>
    rw [List.flatten_cons, List.forall_mem_append] at h
    rw [List.map_cons, List.mapM_cons, readGroup_of h.1, ih h.2]
    rfl

/-- **Levels rebuild the rows.** For rows that are all accepted, reading the groups issued gives
the rows appended, in order and with canonical maps, exactly when no row has its pairs cut, and none
has more pairs than are counted. -/
theorem rows_rebuilt_iff {sort : IndexSort} (hsort : sort.Lawful) {series : String}
    {keyDefs : List KeyDef} {calls : List Row} {c : Columns}
    (hbuild : RowBuilder.build sort calls (RowBuilder.new series keyDefs) = some c)
    (rowGroupRows : ℕ) :
    Rebuilds sort series keyDefs calls c rowGroupRows ↔
      ∀ r ∈ calls, ¬ Truncated r.extra ∧ ¬ Uncountable r.extra := by
  constructor
  · rintro ⟨groups, chunks, hwhole, -, hread, hflat⟩
    obtain ⟨-, hstorable, held, hheld, hwhole'⟩ := writeFile_build hbuild rowGroupRows
    cases hwhole.symm.trans hwhole'
    have hread' : (held.map (groupOf keyDefs)).mapM (readGroup keyDefs) = some held :=
      mapM_readGroup (hheld ▸ fun r hr ↦ (hstorable r hr).keys)
    cases hread.symm.trans hread'
    rw [hheld] at hflat
    -- what the columns hold has fewer pairs than an uncountable row
    have hcount : ∀ r ∈ calls, ¬ Uncountable r.extra := by
      rintro r hr ⟨hcanonical, hlen⟩
      have hlt := (hstorable (fileRow r) (hflat ▸ List.mem_map_of_mem hr)).count
      rw [fileRow, canonicalExtra_eq_self hcanonical] at hlt
      exact absurd hlt (Nat.not_lt.2 hlen)
    rw [Held.foldl_push_of_countable hsort hcount] at hflat
    exact fun r hr ↦ ⟨(stored_eq_iff hsort r).1 (List.map_inj_left.1 hflat r hr), hcount r hr⟩
  · intro h
    obtain ⟨chunks, hflat, hwhole, hstream⟩ :=
      issued_of hsort hbuild (fun r hr ↦ (h r hr).2) rowGroupRows
    obtain ⟨hcalls, -⟩ := writeFile_build hbuild rowGroupRows
    refine ⟨_, chunks, hwhole, hstream, mapM_readGroup ?_, hflat.trans ?_⟩
    · rw [hflat]
      exact List.forall_mem_map.2 fun r hr ↦ (hcalls r hr).fit
    · exact List.map_congr_left fun r hr ↦ (stored_eq_iff hsort r).2 (h r hr).1

/-! ## A map that is lost -/

private theorem isCanonical_replicate {n : ℕ} (hn : 2 ≤ n) (p : String × String) :
    isCanonical (List.replicate n p) = false := by
  refine Bool.eq_false_iff.2 fun h ↦ ?_
  rcases List.pairwise_replicate.1 (isCanonical_iff.1 h) with hle | hlt
  · omega
  · exact lt_irrefl _ hlt

private theorem canonicalExtra_replicate {n : ℕ} (hn : 0 < n) (p : String × String) :
    canonicalExtra (List.replicate n p) = [p] := by
  have hone : canonicalExtra [p] = [p] := canonicalExtra_eq_self (isCanonical_iff.2 (by simp))
  rw [← hone]
  refine canonicalExtra_congr fun q ↦ ?_
  rw [List.mem_replicate, List.mem_singleton]
  exact and_iff_right (Nat.ne_of_gt hn)

/-- The same pair, once more than a `u32` can count. -/
private def hugeRow : Row := ⟨7, "", [], List.replicate (2 ^ 32) ("k", "v"), ""⟩

private theorem kept_hugeRow : RowBuilder.kept insertionIndexSort hugeRow.extra = [] := by
  rw [RowBuilder.kept_eq insertionIndexSort_lawful, hugeRow,
    isCanonical_replicate (by decide), List.length_replicate, Nat.mod_self, List.take_zero]
  rfl

/-- The row is accepted, and read back with an empty map. -/
theorem huge_map_lost :
    ∃ c, RowBuilder.build insertionIndexSort [hugeRow] (RowBuilder.new "t" []) = some c ∧
      (c.writeFile 1).bind (fun groups ↦ groups.mapM (readGroup [])) =
        some [[⟨7, "", [], [], ""⟩]] ∧
      fileRow hugeRow = ⟨7, "", [], [("k", "v")], ""⟩ := by
  have hheld : Held.push insertionIndexSort {} hugeRow = ⟨[⟨7, "", [], [], ""⟩], []⟩ := by
    rw [Held.push, kept_hugeRow]
    rfl
  refine ⟨.of "t" [] ⟨[⟨7, "", [], [], ""⟩], []⟩, ?_, by decide +kernel, ?_⟩
  · rw [RowBuilder.new_eq_of, RowBuilder.build_eq_some_iff]
    exact ⟨List.forall_mem_singleton.2 ⟨.nil, by decide⟩, congrArg _ hheld.symm⟩
  · rw [fileRow, hugeRow, canonicalExtra_replicate (by decide)]
    rfl

/-- A row with a map to be sorted, and one with a null and an empty map. -/
private def mappedRows : List Row :=
  [⟨7, "a", [.str "x"], [("b", "2"), ("a", "1")], ""⟩, ⟨8, "b", [.null], [], "d"⟩]

/-- Two rows in a group each. -/
theorem rows_rebuilt_iff_mapped :
    ∃ c, RowBuilder.build insertionIndexSort mappedRows
        (RowBuilder.new "t" [⟨"k", .str, true⟩]) = some c ∧
      Rebuilds insertionIndexSort "t" [⟨"k", .str, true⟩] mappedRows c 1 := by
  obtain ⟨c, hc⟩ := Option.isSome_iff_exists.1 (show (RowBuilder.build insertionIndexSort mappedRows
    (RowBuilder.new "t" [⟨"k", .str, true⟩])).isSome by decide +kernel)
  refine ⟨c, hc, (rows_rebuilt_iff insertionIndexSort_lawful hc 1).2 fun r hr ↦ ?_⟩
  have hshort : ∀ r ∈ mappedRows, r.extra.length < 2 ^ 32 := by decide
  exact ⟨not_truncated_of_lt (hshort r hr), not_uncountable_of_lt (hshort r hr)⟩

end Buffer

end Orc
