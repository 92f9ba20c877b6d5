import Orc.Flush.Gather

/-!
# What a flush should write

For each series and epoch and each hour with an accepted frame there is one file. Its rows are the
accepted frames of that group and hour in the order of timestamp and id, and of frames that agree in
both only the first to arrive is a row. `Partitions` says this of a list of files, in the order of
their places, and `hourFiles` computes the list.

Neither mentions a batch, a run or a merge. This is the purpose of a flush in its own words: a
reader who wants to know what is in `series/` needs this module and not the ones about merging. The
two forms serve different ends. `Partitions` is what a statement should say, since it names each
property of the files separately; `hourFiles` is what the program is compared with, since it is a
function. They determine each other (`partitions_hourFiles`).

"First to arrive" is by segment and then by place in the segment, which is the order in which the
engine accepted the frames. Nothing depends on the order in which segments are read.

## Records of a batch

The last section relates the two levels: a record that a batch holds is an accepted frame with its
sort key (`Accepted.head_eq_entry`), as long as the place of its id and the length of its frame are
stored without loss (`Accepted.Bounded`). A segment of 4 GiB or more could hold a frame for which
they are not.
-/

namespace Orc

open Bytes Fault Order

namespace Accepted

/-- What duplicates share: the timestamp and the bytes of the id. -/
def key (a : Accepted) : ℕ ×ₗ Bytes := toLex (a.record.ts.toNat, utf8 a.record.id)

/-- What decides between duplicates: the segment and the offset of the frame. -/
def rank (a : Accepted) : ℕ ×ₗ ℕ := toLex a.arrival

/-- The hour a frame is filed under. -/
def hour (a : Accepted) : ℕ := a.record.ts.toNat / usPerHour

end Accepted

/-! ## Files -/

/-- The rows of one hour of a group. -/
structure HourFile where
  group : GroupKey
  hour : ℕ
  rows : List Accepted
  deriving DecidableEq

namespace HourFile

/-- Files are in the order of their groups, and of their hours within a group. -/
def place (f : HourFile) : (Bytes ×ₗ ℕ) ×ₗ ℕ := toLex (f.group.ord, f.hour)

/-- What a flush reports about the file. -/
def written (f : HourFile) : WrittenFile :=
  ⟨f.group.1, f.group.2, hourPartition (f.hour * usPerHour), f.rows.length⟩

/-- Where the file lies, when the flush has consumed the segments of a range. -/
def path (first last : ℕ) (f : HourFile) : Path :=
  [f.group.1, hourPartition (f.hour * usPerHour), outputFileName first last f.group.2]

/-- The rows are the frames of the group and the hour in order, and of duplicates the first to
arrive. -/
structure Of (all : List Accepted) (f : HourFile) : Prop where
  nonempty : f.rows ≠ []
  sorted : f.rows.Pairwise fun a b ↦ a.key < b.key
  mem_iff : ∀ a, a ∈ f.rows ↔ (a ∈ all ∧ a.group = f.group ∧ a.hour = f.hour) ∧
    ∀ b ∈ all, b.group = f.group → b.key = a.key → a.rank ≤ b.rank

/-- A Parquet file with these rows, of the schema the manifest has for the group. -/
structure IsIn (m : Manifest) (f : HourFile) (p : Parquet) : Prop where
  series : p.series = f.group.1
  epoch : p.epoch = f.group.2
  schema : m.schema f.group.1 f.group.2 = some p.schema
  complete : p.complete = true
  rows : p.rows = f.rows.map fun a ↦ a.record.fileRow

end HourFile

/-- One file for each group and hour that has a frame, and no other. -/
structure Partitions (all : List Accepted) (fs : List HourFile) : Prop where
  order : fs.Pairwise fun f f' ↦ f.place < f'.place
  each : ∀ f ∈ fs, f.Of all
  every : ∀ a ∈ all, ∃ f ∈ fs, f.group = a.group ∧ f.hour = a.hour

namespace Partitions

variable {all : List Accepted} {fs : List HourFile}

private theorem nodup_rows (h : Partitions all fs) : (fs.flatMap HourFile.rows).Nodup := by
  refine List.nodup_flatMap.2 ⟨fun f hf ↦ ?_, h.order.imp_of_mem fun hf hf' hlt a ha ha' ↦ ?_⟩
  · exact (h.each f hf).sorted.imp fun hlt ↦ ne_of_apply_ne Accepted.key hlt.ne
  · obtain ⟨-, hgroup, hhour⟩ := (((h.each _ hf).mem_iff a).1 ha).1
    obtain ⟨-, hgroup', hhour'⟩ := (((h.each _ hf').mem_iff a).1 ha').1
    refine hlt.ne ?_
    rw [HourFile.place, HourFile.place, ← hgroup, ← hgroup', ← hhour, ← hhour']

theorem sum_length_le (h : Partitions all fs) :
    (fs.map fun f ↦ f.rows.length).sum ≤ all.length := by
  rw [← List.length_flatMap]
  refine (h.nodup_rows.subperm fun a ha ↦ ?_).length_le
  obtain ⟨f, hf, ha⟩ := List.mem_flatMap.1 ha
  exact (((h.each f hf).mem_iff a).1 ha).1.1

end Partitions

/-! ## Computing the files -/

/-- The rows of a group, over all hours. -/
def groupRows (all : List Accepted) (g : GroupKey) : List Accepted :=
  canon Accepted.key Accepted.rank (all.filter fun a ↦ a.group = g)

/-- The groups that have frames, in order. -/
def groupsOf (all : List Accepted) : List GroupKey :=
  canon GroupKey.ord GroupKey.ord (all.map Accepted.group)

/-- The file of rows that are of one hour. -/
def hourFile (g : GroupKey) (rows : List Accepted) : HourFile :=
  ⟨g, rows.head?.elim 0 Accepted.hour, rows⟩

/-- The files for some frames. -/
def hourFiles (all : List Accepted) : List HourFile :=
  (groupsOf all).flatMap fun g ↦ (cut Accepted.hour (groupRows all g)).map (hourFile g)

section Compute

variable {all : List Accepted}

private theorem hour_le_of_key_lt {a b : Accepted} (h : a.key < b.key) : a.hour ≤ b.hour := by
  refine Nat.div_le_div_right ?_
  rcases Prod.Lex.toLex_lt_toLex.1 h with h | h
  · exact h.le
  · exact h.1.le

theorem groupRows_hours (all : List Accepted) (g : GroupKey) :
    (groupRows all g).Pairwise fun a b ↦ a.hour ≤ b.hour :=
  (pairwise_canon Accepted.key Accepted.rank _).imp hour_le_of_key_lt

private theorem mem_groupRows (hranked : Ranked Accepted.key Accepted.rank all) {g : GroupKey}
    {a : Accepted} :
    a ∈ groupRows all g ↔ (a ∈ all ∧ a.group = g) ∧
      ∀ b ∈ all, b.group = g → b.key = a.key → a.rank ≤ b.rank := by
  rw [groupRows, mem_canon (hranked.mono fun a ha ↦ List.mem_of_mem_filter ha)]
  simp only [List.mem_filter, decide_eq_true_eq, and_imp]

theorem mem_groupsOf {g : GroupKey} : g ∈ groupsOf all ↔ ∃ a ∈ all, a.group = g := by
  rw [← List.mem_map]
  exact mem_canon_of_injective _ _ Batch.GroupKey.ord_injective

/-- A frame and the one that stands for it have the same time. -/
theorem exists_mem_groupRows {a : Accepted} (ha : a ∈ all) :
    ∃ b ∈ groupRows all a.group, b.record.ts.toNat = a.record.ts.toNat := by
  have hmem : a ∈ all.filter fun b ↦ b.group = a.group := by simpa using ha
  obtain ⟨b, hb, hkey⟩ := exists_mem_canon Accepted.key Accepted.rank hmem
  exact ⟨b, hb, congrArg (fun k ↦ (ofLex k).1) hkey⟩

theorem ranked_acceptedIn {crc : Bytes → UInt32} {m : Manifest} {wal : Std.ExtTreeMap ℕ SegFile}
    {ids : List ℕ} : Ranked Accepted.key Accepted.rank (acceptedIn crc m wal ids) :=
  fun _ ha _ hb _ hrank ↦ eq_of_arrival_eq ha hb (toLex.injective hrank)

private theorem hourFile_of_mem_cut (hranked : Ranked Accepted.key Accepted.rank all) {g : GroupKey}
    {rows : List Accepted} (hrows : rows ∈ cut Accepted.hour (groupRows all g)) :
    (hourFile g rows).Of all := by
  obtain ⟨a, as, hcons, hfilter⟩ := eq_filter_of_mem_cut (groupRows_hours all g) hrows
  refine ⟨hcons ▸ List.cons_ne_nil a as, ?_, fun b ↦ ?_⟩
  · change rows.Pairwise _
    rw [hfilter]
    exact (pairwise_canon _ _ _).filter _
  · have hhour : (hourFile g rows).hour = a.hour := by
      rw [hourFile, hcons]
      rfl
    change b ∈ rows ↔ _
    rw [hhour, hfilter, List.mem_filter, mem_groupRows hranked, decide_eq_true_eq]
    change _ ↔ (b ∈ all ∧ b.group = g ∧ b.hour = a.hour) ∧ _
    tauto

/-- **The files computed** are those a flush should write. -/
theorem partitions_hourFiles (hranked : Ranked Accepted.key Accepted.rank all) :
    Partitions all (hourFiles all) where
  order := by
    refine List.pairwise_flatMap.2 ⟨fun g _ ↦ ?_, ?_⟩
    · -- within a group, by the hour
      refine List.pairwise_map.2 ((pairwise_cut (groupRows_hours all g)).imp_of_mem ?_)
      intro c c' hc hc' hlt
      obtain ⟨a, as, rfl, -⟩ := class_eq_of_mem_cut hc
      obtain ⟨b, bs, rfl, -⟩ := class_eq_of_mem_cut hc'
      exact Prod.Lex.toLex_lt_toLex.2
        (.inr ⟨rfl, hlt a List.mem_cons_self b List.mem_cons_self⟩)
    · refine (pairwise_canon GroupKey.ord GroupKey.ord _).imp fun hlt f hf f' hf' ↦ ?_
      obtain ⟨c, -, rfl⟩ := List.mem_map.1 hf
      obtain ⟨c', -, rfl⟩ := List.mem_map.1 hf'
      exact Prod.Lex.toLex_lt_toLex.2 (.inl hlt)
  each f hf := by
    obtain ⟨g, -, hf⟩ := List.mem_flatMap.1 hf
    obtain ⟨rows, hrows, rfl⟩ := List.mem_map.1 hf
    exact hourFile_of_mem_cut hranked hrows
  every a ha := by
    -- the frame of least arrival with the key of `a` is a row of its group
    obtain ⟨b, hb, hts⟩ := exists_mem_groupRows ha
    rw [← flatten_cut (k := Accepted.hour) (groupRows all a.group)] at hb
    obtain ⟨rows, hrows, hbrows⟩ := List.mem_flatten.1 hb
    have hof := hourFile_of_mem_cut hranked hrows
    refine ⟨hourFile a.group rows, List.mem_flatMap.2 ⟨a.group, mem_groupsOf.2 ⟨a, ha, rfl⟩,
      List.mem_map.2 ⟨rows, hrows, rfl⟩⟩, rfl, ?_⟩
    rw [← ((hof.mem_iff b).1 hbrows).1.2.2, Accepted.hour, hts, ← Accepted.hour]

/-- The rows of all files are those of all groups. -/
theorem sum_length_hourFiles (all : List Accepted) :
    ((hourFiles all).map fun f ↦ f.rows.length).sum =
      ((groupsOf all).map fun g ↦ (groupRows all g).length).sum := by
  have hgroup : ∀ g, (((cut Accepted.hour (groupRows all g)).map (hourFile g)).map
      fun f ↦ f.rows.length).sum = (groupRows all g).length := fun g ↦ by
    conv_rhs => rw [← flatten_cut (k := Accepted.hour) (groupRows all g), List.length_flatten]
    rw [List.map_map]
    rfl
  rw [hourFiles]
  induction groupsOf all with
  | nil => rfl
  | cons g gs ih =>
    rw [List.flatMap_cons, List.map_append, List.sum_append, ih, hgroup, List.map_cons,
      List.sum_cons]

end Compute

/-! ## Frames and the records of a batch -/

/-- A frame with its sort key, as the merge should see it. -/
def Accepted.entry (a : Accepted) : Head := ⟨a.record.ts, utf8 a.record.id, a.arrival, a.frame⟩

/-- What is stored of a frame in the widths the batch and the runs have for it. -/
structure Accepted.Bounded (a : Accepted) : Prop where
  name : (utf8 a.record.series).length ≤ 255
  frame : a.frame.length < 2 ^ 32
  segment : a.arrival.1 ≤ u64Max
  offset : a.arrival.2 ≤ u64Max

section Entries

variable {crc : Bytes → UInt32} {m : Manifest} {a : Accepted}

/-- **A record in a batch** is its frame with its sort key. -/
theorem Accepted.head_eq_entry (ha : a.Sound crc m) (hbounded : a.Bounded) : a.head = a.entry := by
  have hoff : idOffset a.record.series % 2 ^ 16 = idOffset a.record.series := by
    refine Nat.mod_eq_of_lt ?_
    have := hbounded.name
    simp only [idOffset, frameHeaderBytes]
    omega
  have hid : (utf8 a.record.id).length % 2 ^ 16 = (utf8 a.record.id).length :=
    Nat.mod_eq_of_lt (Nat.lt_succ_of_le ha.fits.start.id)
  obtain ⟨rest, hrest⟩ := drop_idOffset crc a.record
  rw [Accepted.head, Batch.pushed, hoff, hid, Nat.mod_eq_of_lt hbounded.frame, List.take_length]
  rw [← ha.frame_eq] at hrest
  rw [hrest, List.take_left]
  rfl

theorem Accepted.entry_stored (ha : a.Sound crc m) (hbounded : a.Bounded) : a.entry.Stored := by
  have hstored : Head.Stored ⟨_, _, a.arrival, frameBytes crc _⟩ :=
    stored_frameBytes ha.fits ha.size
    (Nat.lt_succ_of_le hbounded.segment) (Nat.lt_succ_of_le hbounded.offset)
  rw [← ha.frame_eq] at hstored
  exact hstored

/-- What the merge reads from the frame is the record. -/
theorem Accepted.decodeVerified_entry (ha : a.Sound crc m) {keys : List KeyDef}
    (hkeys : m.schema a.group.1 a.group.2 = some keys) :
    decodeVerified a.entry.frame keys.length =
        .ok (a.record, frameHeaderBytes + (payloadBytes a.record).length) ∧
      KeysFit keys a.record.keys := by
  obtain ⟨keys', hschema, hfit⟩ := ha.schema
  obtain rfl : keys' = keys := Option.some.inj (hschema.symm.trans hkeys)
  have hdecode := decodeVerified_frameBytes crc ha.fits ha.size []
  rw [List.append_nil, ← ha.frame_eq, ← hfit.length_eq] at hdecode
  exact ⟨hdecode, hfit⟩

end Entries

end Orc
