import Orc.Flush.Expected
import Orc.Flush.Staged

/-!
# What a flush writes

`run` from beginning to end. A flush that returns has consumed the readable ones of a first part of
its segments, all of them unless something failed, and what it reports and publishes is a function
of the frames accepted from these (`outcomeOf`, `hourFiles`). The budget, the fan-in and the size of
row groups do not enter that function. A flush that returns an error has a reason to (`FlushError`).

The parts are put together in the order of the program: what the first phase gathers stands for the
frames accepted, the merge of each group is their normal form, what is staged is one file for each
hour of it, and publishing moves what was staged. Each step is a triple from an earlier module, and
what is proved here is that the pieces fit: the paths of different groups are different, and the
counts add up. `InWidth` is the one condition on the segments, that what a batch stores of a frame
is stored without loss.
-/

namespace Orc

open Bytes Fault Order

/-! ## The outcome -/

/-- What a flush reports that has consumed segments and accepted frames from them. -/
def outcomeOf (consumed : List ℕ) (all : List Accepted) (counts : ℕ × ℕ) : FlushOutcome where
  segmentsConsumed := consumed
  filesWritten := (hourFiles all).map HourFile.written
  rowsWritten := ((hourFiles all).map fun f ↦ f.rows.length).sum
  rowsDeduplicated := all.length - ((hourFiles all).map fun f ↦ f.rows.length).sum
  framesRejected := counts.1
  bytesSkipped := counts.2

section Expected

variable (crc : Bytes → UInt32) (m : Manifest) (wal : Std.ExtTreeMap ℕ SegFile)

/-- What a flush reports that has taken segments: nothing, if none can be read or they are empty. -/
def expected (taken : List ℕ) : FlushOutcome :=
  if readable wal taken = [] ∨
      acceptedIn crc m wal (readable wal taken) = [] ∧ countsIn crc m wal taken = 0 then
    { framesRejected := (countsIn crc m wal taken).1, bytesSkipped := (countsIn crc m wal taken).2 }
  else
    outcomeOf (readable wal taken) (acceptedIn crc m wal (readable wal taken))
      (countsIn crc m wal taken)

/-- The files of a flush that has consumed segments are in `series/`, and nothing else has changed
there. -/
structure PublishedFiles (before : Std.ExtTreeMap Path Parquet) (consumed : List ℕ)
    (series : Std.ExtTreeMap Path Parquet) (first last : ℕ) : Prop where
  range : consumed.head? = some first ∧ consumed.getLast? = some last
  files : ∀ f ∈ hourFiles (acceptedIn crc m wal consumed),
    ∃ p, series[f.path first last]? = some p ∧ f.IsIn m p
  others : ∀ q, (∀ f ∈ hourFiles (acceptedIn crc m wal consumed), f.path first last ≠ q) →
    series[q]? = before[q]?

/-- The schema of a file. -/
def HourFile.keys (f : HourFile) : List KeyDef := (m.schema f.group.1 f.group.2).getD []

/-- The rows of a file, as they are stored. -/
def HourFile.fileRows (f : HourFile) : List FileRow := f.rows.map fun a ↦ a.record.fileRow

/-- The number of rows in a row group. -/
def FlushConfig.groupRows (flush : FlushConfig) : ℕ := max flush.rowGroupRows.toNat 1

/-- The calls of the crate for a file. -/
def HourFile.calls (flush : FlushConfig) (f : HourFile) : List CrateCall :=
  fileCalls f.group.1 (f.keys m) flush.groupRows f.fileRows

/-- The crate has taken the files of segments. -/
def StoredFiles (o : Oracle Op) (flush : FlushConfig) (consumed : List ℕ) : Prop :=
  ∀ f ∈ hourFiles (acceptedIn crc m wal consumed), ∀ call ∈ f.calls m flush, Done o (.parquet call)

/-- Why a flush may return an error: an operation failed, a segment is missing, the codec is not
known, an accepted frame has a timestamp that is too large, or the crate refuses a file. -/
inductive FlushError (o : Oracle Op) (config : Config) (ids : List ℕ) : Error → Prop where
  | io : FailsOn Op.onFiles o → FlushError o config ids ioError
  | missing {id : ℕ} : id ∈ ids → wal[id]? = none → FlushError o config ids (.io .notFound)
  | codec : config.flush.compression ∉ supportedCompression →
      FlushError o config ids (.config (.compression config.flush.compression))
  | large {a : Accepted} : a ∈ acceptedIn crc m wal (readable wal ids) →
      2 ^ 63 ≤ a.record.ts.toNat → FlushError o config ids (.config (.tsTooLarge a.record.ts))
  | refused {taken : List ℕ} {f : HourFile} {call : CrateCall} :
      (taken = ids ∨ FailsOn Op.onFiles o) → f ∈
        hourFiles (acceptedIn crc m wal (readable wal taken)) →
      call ∈ f.calls m config.flush → Failed o (.parquet call) → FlushError o config ids call.error

end Expected

/-! ## From the frames to the merge -/

section Frames

variable {crc : Bytes → UInt32} {m : Manifest} {all : List Accepted}

private theorem ofGroup_grouped (hsound : ∀ a ∈ all, a.Sound crc m)
    (hbounded : ∀ a ∈ all, a.Bounded) (g : GroupKey) :
    ofGroup g (all.map Accepted.grouped) = (all.filter fun a ↦ a.group = g).map Accepted.entry := by
  rw [ofGroup, List.filter_map, List.map_map]
  refine List.map_congr_left fun a ha ↦ ?_
  have ha := List.mem_of_mem_filter ha
  exact Accepted.head_eq_entry (hsound a ha) (hbounded a ha)

private theorem canon_ofGroup (hsound : ∀ a ∈ all, a.Sound crc m) (hbounded : ∀ a ∈ all, a.Bounded)
    (g : GroupKey) :
    canon Head.key Head.rank (ofGroup g (all.map Accepted.grouped)) =
      (groupRows all g).map Accepted.entry := by
  rw [ofGroup_grouped hsound hbounded, canon_map]
  rfl

theorem cut_entries (rows : List Accepted) :
    cut hourOf (rows.map Accepted.entry) = (cut Accepted.hour rows).map (List.map Accepted.entry) :=
  cut_map hourOf Accepted.entry rows

private theorem written_entries (flush : FlushConfig) (first last : ℕ) (g : GroupKey)
    (keys : List KeyDef) (rows : List Accepted) :
    (target flush first last g keys).written (rows.map Accepted.entry) =
      ((hourFile g rows).written, (hourFile g rows).path first last) := by
  have hhour : hourPartition (firstTs (rows.map Accepted.entry)) =
      hourPartition ((hourFile g rows).hour * usPerHour) := by
    rw [hourPartition_inj, Nat.mul_div_cancel _ (by decide)]
    cases rows with
    | nil => rfl
    | cons a as => rfl
  rw [Target.written, Target.path, hhour, List.length_map]
  rfl

private theorem small_of_groupRows (h : ∀ g, ∀ a ∈ groupRows all g, a.record.ts.toNat < 2 ^ 63) :
    ∀ a ∈ all, a.record.ts.toNat < 2 ^ 63 := by
  intro a ha
  obtain ⟨b, hb, hts⟩ := exists_mem_groupRows ha
  exact hts ▸ h a.group b hb

private theorem paths_nodup {fs : List HourFile} (h : Partitions all fs) {first last : ℕ}
    (hfirst : first ≤ u64Max) (hlast : last ≤ u64Max) :
      (fs.map (HourFile.path first last)).Nodup := by
  refine List.pairwise_map.2 (h.order.imp fun {f f'} hlt heq ↦ hlt.ne ?_)
  obtain ⟨hseries, hhour, hname⟩ : f.group.1 = f'.group.1 ∧
      hourPartition (f.hour * usPerHour) = hourPartition (f'.hour * usPerHour) ∧
      outputFileName first last f.group.2 = outputFileName first last f'.group.2 := by
    simpa [HourFile.path] using heq
  have hgroup : f.group = f'.group :=
    Prod.ext hseries (epoch_of_outputFileName hfirst hlast hname)
  rw [hourPartition_inj, Nat.mul_div_cancel _ (by decide),
    Nat.mul_div_cancel _ (by decide)] at hhour
  rw [HourFile.place, HourFile.place, hgroup, hhour]

end Frames

section Gathered

variable {crc : Bytes → UInt32} {m : Manifest} {wal : Std.ExtTreeMap ℕ SegFile}
  {runs : Std.ExtTreeMap ℕ Bytes} {g : Gathered}

theorem Gathered.Holds.merging (h : g.Holds crc m wal runs)
    (hbounded : ∀ a ∈ acceptedIn crc m wal g.consumed, a.Bounded) :
    ∃ rs, (∀ r ∈ rs, runs[r.2.1]? = some (runBytes r.2.2)) ∧
      Merging g.spill rs g.batch.sort.sources
        ((acceptedIn crc m wal g.consumed).map Accepted.grouped) g.batch.sort.deduplicated := by
  obtain ⟨rs, hspill, hsplit⟩ := h.records
  refine ⟨rs, hspill.files, hspill.groups, hspill.numbers,
    (Batch.sources_sort h.ok h.distinct_heads).nodup, h.split_sort hsplit, distinct_acceptedIn, ?_⟩
  intro k x hx
  obtain ⟨a, ha, heq⟩ := List.mem_map.1 hx
  obtain ⟨rfl, rfl⟩ := Prod.mk.inj heq
  have hsound := acceptedIn_sound ha
  rw [Accepted.head_eq_entry hsound (hbounded a ha)]
  exact Accepted.entry_stored hsound (hbounded a ha)

theorem Gathered.Holds.lookup_eq (h : g.Holds crc m wal runs) {a : Accepted}
    (ha : a ∈ acceptedIn crc m wal g.consumed) :
    m.schema a.group.1 a.group.2 = some ((g.schemas.lookup a.group).getD []) := by
  obtain ⟨keys, hkeys⟩ := Option.isSome_iff_exists.1 (h.covered a ha)
  obtain ⟨keys', hschema, -⟩ := (acceptedIn_sound ha).schema
  have heq := h.schemas a.group keys hkeys
  have hschema' : m.schema a.group.1 a.group.2 = some keys' := hschema
  rw [hschema', Option.getD_some] at heq
  rw [hkeys, hschema', Option.getD_some, heq]

end Gathered

/-! ## Staging -/

section Triples

variable {crc : Bytes → UInt32} {m : Manifest} {wal : Std.ExtTreeMap ℕ SegFile} {o : Oracle Op}
  {P : Disk → Prop} {E : Error → Disk → Prop}

/-- A plan is ready: the files are staged, complete, under the paths in the plan. -/
structure Plan.Holds (crc : Bytes → UInt32) (m : Manifest) (wal : Std.ExtTreeMap ℕ SegFile)
    (first : ℕ) (plan : Plan) (d : Disk) : Prop where
  staged : plan.staged =
    (hourFiles (acceptedIn crc m wal plan.ids)).map (HourFile.path first plan.last)
  files : ∀ f ∈ hourFiles (acceptedIn crc m wal plan.ids),
    ∃ p, d.tmp[f.path first plan.last]? = some p ∧ f.IsIn m p
  small : ∀ a ∈ acceptedIn crc m wal plan.ids, a.record.ts.toNat < 2 ^ 63

theorem StagedGroups.files {flush : FlushConfig} {first last : ℕ}
    {schemas : List (GroupKey × List KeyDef)} {all : List Accepted} {records : GroupKey → ℕ}
    {s : Merged} {d : Disk}
    (h : StagedGroups o (fun k ↦ target flush first last k ((schemas.lookup k).getD []))
      (fun k ↦ (groupRows all k).map Accepted.entry) records (groupsOf all) s d) :
    s.staged = (hourFiles all).map (fun f ↦ (f.written, f.path first last)) ∧
      s.rowsWritten = ((hourFiles all).map fun f ↦ f.rows.length).sum ∧
      (∀ f ∈ hourFiles all,
        (target flush first last f.group ((schemas.lookup f.group).getD [])).Staged o
          (f.path first last) ((f.rows.map Accepted.entry).map
            (target flush first last f.group ((schemas.lookup f.group).getD [])).rowOf) d) ∧
      ∀ a ∈ all, a.record.ts.toNat < 2 ^ 63 := by
  refine ⟨?_, ?_, ?_, ?_⟩
  · rw [h.staged, hourFiles, List.map_flatMap]
    refine List.flatMap_congr fun k _ ↦ ?_
    rw [cut_entries, List.map_map, List.map_map]
    exact List.map_congr_left fun rows _ ↦ written_entries flush first last k _ rows
  · rw [h.written, sum_length_hourFiles]
    simp only [List.length_map]
  · intro f hf
    obtain ⟨k, hk, hf⟩ := List.mem_flatMap.1 hf
    obtain ⟨rows, hrows, rfl⟩ := List.mem_map.1 hf
    have hclosed := h.closed k hk
    rw [cut_entries] at hclosed
    have hstaged := hclosed _ (List.mem_map.2 ⟨rows, hrows, rfl⟩)
    have hpath := congrArg Prod.snd
      (written_entries flush first last k ((schemas.lookup k).getD []) rows)
    rw [← show _ = (hourFile k rows).path first last from hpath]
    exact hstaged
  · refine small_of_groupRows fun k a ha ↦ ?_
    have hk : k ∈ groupsOf all := by
      have hmem := List.mem_filter.1 (mem_of_mem_canon _ _ ha)
      exact mem_groupsOf.2 ⟨a, hmem.1, of_decide_eq_true hmem.2⟩
    exact h.small k hk a.entry (List.mem_map_of_mem ha)

section HourFile

variable {runs : Std.ExtTreeMap ℕ Bytes} {g : Gathered} {flush : FlushConfig} {first last : ℕ}
  {f : HourFile}

theorem Gathered.Holds.schema_eq (h : g.Holds crc m wal runs)
    (hf : f.Of (acceptedIn crc m wal g.consumed)) :
    m.schema f.group.1 f.group.2 = some ((g.schemas.lookup f.group).getD []) := by
  obtain ⟨a, ha⟩ := List.exists_mem_of_ne_nil _ hf.nonempty
  obtain ⟨hall, hgroup, -⟩ := ((hf.mem_iff a).1 ha).1
  rw [← hgroup]
  exact h.lookup_eq hall

theorem Gathered.Holds.rows_eq (h : g.Holds crc m wal runs)
    (hf : f.Of (acceptedIn crc m wal g.consumed)) (flush : FlushConfig) (first last : ℕ) :
    (f.rows.map Accepted.entry).map
        (target flush first last f.group ((g.schemas.lookup f.group).getD [])).rowOf =
      f.rows.map (fun a ↦ a.record.fileRow) ∧
    ∀ r ∈ f.rows.map (fun a ↦ a.record.fileRow), KeysFit ((g.schemas.lookup f.group).getD [])
      r.keys := by
  have hdecode : ∀ a ∈ f.rows, decodeVerified a.entry.frame
      ((g.schemas.lookup f.group).getD []).length =
        .ok (a.record, frameHeaderBytes + (payloadBytes a.record).length) ∧
        KeysFit ((g.schemas.lookup f.group).getD []) a.record.keys := fun a ha ↦ by
    obtain ⟨hall, hgroup, -⟩ := ((hf.mem_iff a).1 ha).1
    refine Accepted.decodeVerified_entry (acceptedIn_sound hall) ?_
    rw [hgroup]
    exact h.schema_eq hf
  refine ⟨?_, List.forall_mem_map.2 fun a ha ↦ (hdecode a ha).2⟩
  rw [List.map_map]
  refine List.map_congr_left fun a ha ↦ ?_
  have hframe : decodeVerified a.entry.frame
      (target flush first last f.group ((g.schemas.lookup f.group).getD [])).keys.length = _ :=
    (hdecode a ha).1
  change Target.rowOf _ a.entry = _
  rw [Target.rowOf, hframe]

theorem Gathered.Holds.calls_eq (h : g.Holds crc m wal runs)
    (hf : f.Of (acceptedIn crc m wal g.consumed)) (flush : FlushConfig) (first last : ℕ) :
    (target flush first last f.group ((g.schemas.lookup f.group).getD [])).calls
        ((f.rows.map Accepted.entry).map
          (target flush first last f.group ((g.schemas.lookup f.group).getD [])).rowOf) =
      f.calls m flush := by
  rw [(h.rows_eq hf flush first last).1, HourFile.calls, HourFile.keys, h.schema_eq hf,
    Option.getD_some]
  rfl

theorem Gathered.Holds.isIn (h : g.Holds crc m wal runs)
    (hf : f.Of (acceptedIn crc m wal g.consumed)) {p : Parquet} {rows : List FileRow}
    (hrows : rows = (f.rows.map Accepted.entry).map
      (target flush first last f.group ((g.schemas.lookup f.group).getD [])).rowOf)
    (hp : (target flush first last f.group ((g.schemas.lookup f.group).getD [])).IsFile rows
      (groupCount (target flush first last f.group ((g.schemas.lookup f.group).getD [])).groupRows
        rows) true p) :
    f.IsIn m p := by
  obtain ⟨hrecords, hfit⟩ := h.rows_eq hf flush first last
  rw [hrecords] at hrows
  subst hrows
  exact ⟨hp.series, hp.epoch, by rw [h.schema_eq hf, hp.schema]; rfl, hp.complete, hp.rows_eq hfit⟩

end HourFile

/-- **The second phase** stages the files and reports them. -/
theorem stage_files (config : Config) {g : Gathered}
    (hbounded : ∀ a ∈ acceptedIn crc m wal g.consumed, a.Bounded) {first last : ℕ}
    (hfirst : first ≤ u64Max) (hlast : last ≤ u64Max) (hruns : IgnoresRuns P)
    (hstaged : ∀ p, IgnoresStaged p P)
    (hx : Exits Op.onFiles o (fun _ ↦ True) ioError E (fun _ ↦ True))
    (hcodec : config.flush.compression ∉ supportedCompression →
      ∀ d, P d → E (.config (.compression config.flush.compression)) d)
    (hlarge : ∀ a ∈ acceptedIn crc m wal g.consumed, 2 ^ 63 ≤ a.record.ts.toNat →
      ∀ d, P d → E (.config (.tsTooLarge a.record.ts)) d)
    (hrefused : ∀ f ∈ hourFiles (acceptedIn crc m wal g.consumed), ∀ call ∈ f.calls m config.flush,
      Failed o (.parquet call) → ∀ d, P d → E call.error d) :
    Triple o (fun d ↦ P d ∧ g.Holds crc m wal d.runs) (stage config g first last)
      (fun plan d ↦ P d ∧ plan.ids = g.consumed ∧ plan.last = last ∧
        plan.outcome = outcomeOf g.consumed (acceptedIn crc m wal g.consumed) g.counts ∧
        plan.Holds crc m wal first d ∧ StoredFiles crc m wal o config.flush g.consumed) E
      (fun _ ↦ True) := by
  have hJ : ∀ d, P d → True := fun _ _ ↦ trivial
  refine .bind (Io.touch_exits hx fun _ _ ↦ trivial) fun _ ↦ .intro ?_
  rintro d₁ ⟨hd₁, hg⟩
  obtain ⟨rs, hfiles, hmerging⟩ := hg.merging hbounded
  set all := acceptedIn crc m wal g.consumed
  have hsound : ∀ a ∈ all, a.Sound crc m := fun a ha ↦ acceptedIn_sound ha
  -- a record that is merged is a frame with its sort key
  have hentry : ∀ k x, (k, x) ∈ all.map Accepted.grouped → ∃ a ∈ all, k = a.group ∧
    x = a.entry := by
    intro k x hx
    obtain ⟨a, ha, heq⟩ := List.mem_map.1 hx
    obtain ⟨rfl, rfl⟩ := Prod.mk.inj heq
    exact ⟨a, ha, rfl, Accepted.head_eq_entry (hsound a ha) (hbounded a ha)⟩
  have hkeys : groupKeys g.batch.sort.sources g.spill = groupsOf all := by
    refine eq_of_mem_iff (k := GroupKey.ord) (pairwise_canon _ _ _) (pairwise_canon _ _ _) fun k ↦
      hmerging.mem_groupKeys.trans (Iff.trans ?_ mem_groupsOf.symm)
    constructor
    · rintro ⟨x, hx⟩
      obtain ⟨a, ha, hk, -⟩ := hentry k x hx
      exact ⟨a, ha, hk.symm⟩
    · rintro ⟨a, ha, rfl⟩
      exact ⟨a.head, List.mem_map.2 ⟨a, ha, rfl⟩⟩
  refine .bind ((mergeGroups_triple config.flush hfirst hlast (fun _ ↦ rfl) hruns
    (fun k ts ↦ hstaged _) hx hJ hcodec hmerging ?_ ?_ ?_).pre ?_) fun s ↦
      .bind (fsyncStaging_exits hx (fun _ _ ↦ trivial) _) fun _ ↦ .ret ?_
  · intro k x hx
    obtain ⟨a, ha, rfl, rfl⟩ := hentry k x hx
    obtain ⟨hdecode, hfit⟩ := Accepted.decodeVerified_entry (hsound a ha) (hg.lookup_eq ha)
    exact ⟨a.record, _, hdecode, hfit, rfl⟩
  · intro k x hx hlt
    obtain ⟨a, ha, rfl, rfl⟩ := hentry k x hx
    exact hlarge a ha hlt
  · -- a piece of what the merge of a group gives is the file of an hour
    intro k c hc call hcall
    rw [canon_ofGroup hsound hbounded, cut_entries] at hc
    obtain ⟨rows, hrows, rfl⟩ := List.mem_map.1 hc
    have hk : k ∈ groupsOf all := by
      obtain ⟨a, ha⟩ := List.exists_mem_of_ne_nil rows (by
        obtain ⟨a, as, rfl, -⟩ := class_eq_of_mem_cut hrows
        exact List.cons_ne_nil a as)
      have hmem : a ∈ groupRows all k := by
        rw [← flatten_cut (k := Accepted.hour) (groupRows all k)]
        exact List.mem_flatten.2 ⟨rows, hrows, ha⟩
      have hfiltered := List.mem_filter.1 (mem_of_mem_canon _ _ hmem)
      exact mem_groupsOf.2 ⟨a, hfiltered.1, of_decide_eq_true hfiltered.2⟩
    have hf : hourFile k rows ∈ hourFiles all :=
      List.mem_flatMap.2 ⟨k, hk, List.mem_map.2 ⟨rows, hrows, rfl⟩⟩
    refine hrefused _ hf call ?_
    rw [← hg.calls_eq ((partitions_hourFiles ranked_acceptedIn).each _ hf) config.flush first last]
    exact hcall
  · rintro d rfl
    exact ⟨hd₁, hfiles⟩
  · rintro d ⟨hd, hs⟩
    have htotal := hs.total
    rw [hkeys, show (fun k ↦ canon Head.key Head.rank (ofGroup k (all.map Accepted.grouped))) =
      fun k ↦ (groupRows all k).map Accepted.entry
        from funext (canon_ofGroup hsound hbounded)] at hs
    obtain ⟨hlist, hwritten, hclosed, hsmall⟩ := hs.files
    have hsum := hmerging.total
    rw [List.length_map] at hsum
    have hof : ∀ f ∈ hourFiles all, f.Of all := (partitions_hourFiles ranked_acceptedIn).each
    refine ⟨hd, rfl, rfl, ?_, ⟨?_, fun f hf ↦ ?_, hsmall⟩, fun f hf ↦ ?_⟩
    · have hdropped :
        s.rowsDeduplicated + g.batch.sort.deduplicated = all.length - s.rowsWritten := by
        omega
      dsimp only
      rw [outcomeOf, hdropped, hlist, hwritten, List.map_map]
      rfl
    · rw [hlist, List.map_map]
      rfl
    · obtain ⟨⟨p, hp, hfile⟩, -⟩ := hclosed f hf
      exact ⟨p, hp, hg.isIn (hof f hf) rfl hfile⟩
    · rw [← hg.calls_eq (hof f hf) config.flush first last]
      exact (hclosed f hf).2

/-! ## The whole flush -/

theorem acceptedIn_mono {ids ids' : List ℕ} (h : ∀ id ∈ ids, id ∈ ids') {a : Accepted}
    (ha : a ∈ acceptedIn crc m wal ids) : a ∈ acceptedIn crc m wal ids' := by
  obtain ⟨id, hid, ha⟩ := List.mem_flatMap.1 ha
  exact List.mem_flatMap.2 ⟨id, h id hid, ha⟩

theorem FlushError.exits (crc : Bytes → UInt32) (m : Manifest) (wal : Std.ExtTreeMap ℕ SegFile)
    (config : Config) (ids : List ℕ) :
    Exits Op.onFiles o (fun _ : Disk ↦ True) ioError (fun e _ ↦ FlushError crc m wal o config ids e)
      (fun _ ↦ True) :=
  ⟨fun hfails _ _ ↦ .io hfails, fun _ _ ↦ trivial⟩

/-- What everything before the commit leaves: the flush has nothing to commit, or its files are
staged. -/
def PreparedFiles (crc : Bytes → UInt32) (m : Manifest) (wal : Std.ExtTreeMap ℕ SegFile)
    (o : Oracle Op) (flush : FlushConfig) (ids : List ℕ) (before : Std.ExtTreeMap Path Parquet)
    (r : FlushOutcome ⊕ Plan) (d : Disk) : Prop :=
  d.series = before ∧ ∃ taken, taken <+: ids ∧ (taken = ids ∨ FailsOn Op.onFiles o) ∧
    match r with
    | .inl outcome => outcome = expected crc m wal taken ∧ outcome.segmentsConsumed = []
    | .inr plan => plan.outcome = expected crc m wal taken ∧
        plan.outcome.segmentsConsumed = plan.ids ∧ (∀ id ∈ plan.ids, id ∈ ids) ∧
        StoredFiles crc m wal o flush plan.ids ∧
        ∃ first, plan.ids.head? = some first ∧ plan.ids.getLast? = some plan.last ∧
          plan.Holds crc m wal first d

theorem Gathered.Holds.expected_eq {runs : Std.ExtTreeMap ℕ Bytes} {g : Gathered} {taken : List ℕ}
    (h : g.Holds crc m wal runs) (hconsumed : g.consumed = readable wal taken)
    (hcounts : g.counts = countsIn crc m wal taken) :
    expected crc m wal taken =
      if g.consumed = [] ∨ g.rowsDecoded = 0 ∧ g.counts = 0 then
        { framesRejected := g.framesRejected, bytesSkipped := g.bytesSkipped }
      else outcomeOf g.consumed (acceptedIn crc m wal g.consumed) g.counts := by
  have hnone : acceptedIn crc m wal g.consumed = [] ↔ g.rowsDecoded = 0 := by
    rw [h.rows, List.length_eq_zero_iff]
  rw [expected, ← hconsumed, ← hcounts]
  exact if_congr (or_congr_right (and_congr_left' hnone)) rfl rfl

/-- **Everything before the commit.** -/
theorem prepare_files (config : Config) {ids : List ℕ} (hids : ids.Nodup)
    (hbounded : ∀ a ∈ acceptedIn crc m wal ids, a.Bounded) (hu64 : ∀ id ∈ ids, id ≤ u64Max)
    (before : Std.ExtTreeMap Path Parquet) :
    Triple o (fun d ↦ d.series = before ∧ ∀ id ∈ ids, d.wal[id]? = wal[id]?)
      (prepare crc config m ids) (PreparedFiles crc m wal o config.flush ids before)
      (fun e _ ↦ FlushError crc m wal o config ids e) (fun _ ↦ True) := by
  have hx := FlushError.exits (o := o) crc m wal config ids
  refine .bind ((Gathered.Holds.decodeSegments_triple (m := m) (P := fun d ↦ d.series = before)
    (fun _ _ hd ↦ hd) (fun _ _ hd ↦ hd) (fun _ _ _ hd ↦ hd) hx
    (fun _ _ ↦ trivial) _ hids (fun id hid hnone _ _ ↦ .missing hid hnone) _).pre fun d hd ↦
      ⟨hd, .start _⟩) fun g ↦ .intro ?_
  rintro d₁ ⟨hd₁, hg, taken, htaken, hconsumed, hcounts, hend⟩
  replace hconsumed : g.consumed = readable wal taken := by simpa using hconsumed
  replace hcounts : g.counts = countsIn crc m wal taken := hcounts.trans (zero_add _)
  have hexpected := hg.expected_eq hconsumed hcounts
  have hsub : ∀ id ∈ g.consumed, id ∈ ids := fun id hid ↦
    htaken.subset (List.mem_of_mem_filter (hconsumed ▸ hid))
  cases hfirst : g.consumed.head? with
  | none =>
    have hnil : g.consumed = [] := List.head?_eq_none_iff.1 hfirst
    rw [if_pos (.inl hnil)] at hexpected
    refine .ret ?_
    rintro d rfl
    exact ⟨hd₁, taken, htaken, hend, hexpected.symm, rfl⟩
  | some first =>
    have hne : g.consumed ≠ [] := fun hnil ↦ by
      rw [hnil] at hfirst
      cases hfirst
    rw [List.getLast?_eq_some_getLast hne]
    dsimp only
    by_cases hnoop : g.rowsDecoded = 0 ∧ g.framesRejected = 0 ∧ g.bytesSkipped = 0
    · have hzero : g.counts = 0 := Prod.ext hnoop.2.1 hnoop.2.2
      rw [if_pos (.inr ⟨hnoop.1, hzero⟩), hnoop.2.1, hnoop.2.2] at hexpected
      rw [if_pos hnoop]
      refine .ret ?_
      rintro d rfl
      exact ⟨hd₁, taken, htaken, hend, hexpected.symm, rfl⟩
    · have hcommits : ¬ (g.consumed = [] ∨ g.rowsDecoded = 0 ∧ g.counts = 0) := by
        rintro (hnil | ⟨hrows, hzero⟩)
        · exact hne hnil
        · exact hnoop ⟨hrows, congrArg Prod.fst hzero, congrArg Prod.snd hzero⟩
      rw [if_neg hcommits] at hexpected
      rw [if_neg hnoop]
      have hlast := List.getLast?_eq_some_getLast hne
      have hreadable : ∀ id ∈ g.consumed, id ∈ readable wal ids := fun id hid ↦ by
        rw [hconsumed] at hid
        exact List.mem_filter.2 ⟨htaken.subset (List.mem_filter.1 hid).1, (List.mem_filter.1 hid).2⟩
      refine .bind ((stage_files (P := fun d ↦ d.series = before) config
        (fun a ha ↦ hbounded a (acceptedIn_mono hsub ha))
        (hu64 first (hsub first (List.mem_of_head? hfirst)))
        (hu64 _ (hsub _ (List.mem_of_getLast? hlast))) (fun _ _ hd ↦ hd) (fun _ _ _ hd ↦ hd) hx
        (fun hunknown _ _ ↦ .codec hunknown)
        (fun a ha hlt _ _ ↦ .large (acceptedIn_mono hreadable ha) hlt)
        fun f hf call hcall hfailed _ _ ↦ .refused hend (hconsumed ▸ hf) hcall hfailed).pre ?_)
        fun plan ↦ .ret ?_
      · rintro d rfl
        exact ⟨hd₁, hg⟩
      · rintro d ⟨hd, hids', hlast', houtcome, hplan, hstored⟩
        refine ⟨hd, taken, htaken, hend, houtcome.trans hexpected.symm, ?_, ?_,
          hids' ▸ hstored, first, ?_, ?_, hplan⟩
        · rw [houtcome, hids']
          rfl
        · rw [hids']
          exact hsub
        · rw [hids', hfirst]
        · rw [hids', hlast, hlast']

private theorem commit_files (hx : Exits Op.onFiles o (fun _ ↦ True) ioError E (fun _ ↦ True))
    (m : Manifest)
    (flushed : Option (List ℕ × List Path)) {tmp before : Std.ExtTreeMap Path Parquet} :
    Triple o (fun d ↦ d.tmp = tmp ∧ d.series = before) (m.commit flushed)
      (fun _ d ↦ d.tmp = tmp ∧ d.series = before) E (fun _ ↦ True) := by
  refine (Manifest.commit_triple (fun _ _ hd ↦ hd) m _).conseq (fun _ hd ↦ hd) ?_ ?_
    fun _ _ ↦ trivial
  · rintro _ d ⟨d₁, hd₁, rfl⟩
    exact hd₁
  · rintro _ d ⟨rfl, ⟨-, hfails⟩ | ⟨-, t, n, ho⟩⟩
    · rcases hfails with ⟨t, n, ho⟩ | ⟨t, n, ho⟩ | ⟨t, n, ho⟩ | ⟨t, n, ho⟩ <;>
        exact hx.fails ⟨t, _, n, rfl, ho⟩ d trivial
    · exact hx.fails ⟨t, _, n, rfl, ho⟩ d trivial

private theorem promoteAll_files (hx : Exits Op.onFiles o (fun _ ↦ True) ioError E (fun _ ↦ True))
    {staged : List Path} {tmp before : Std.ExtTreeMap Path Parquet} (hnodup : staged.Nodup)
    (hthere : ∀ p ∈ staged, ∃ f, tmp[p]? = some f) :
    Triple o (fun d ↦ d.tmp = tmp ∧ d.series = before) (staged.forM promote)
      (fun _ d ↦ ∀ p, d.series[p]? = if p ∈ staged then tmp[p]? else before[p]?) E
      (fun _ ↦ True) := by
  -- the files promoted so far are in `series/`, and the others still staged
  refine (Triple.forM (I := fun left d ↦ ∃ done, done ++ left = staged ∧
      (∀ p ∈ left, d.tmp[p]? = tmp[p]?) ∧
      ∀ p, d.series[p]? = if p ∈ done then tmp[p]? else before[p]?)
    (fun p left ↦ promote_triple hx (fun _ _ ↦ trivial) (fun _ _ ↦ trivial) ?_ ?_) _).conseq
    ?_ ?_ (fun _ _ ↦ id) fun _ ↦ id
  · rintro d ⟨done, hdone, hleft, -⟩ hnone
    obtain ⟨f, hf⟩ := hthere p (hdone ▸ List.mem_append_right _ List.mem_cons_self)
    rw [hleft p List.mem_cons_self, hf] at hnone
    cases hnone
  · rintro d f ⟨done, hdone, hleft, hseries⟩ hf
    have hfresh : p ∉ left := by
      rw [← hdone, List.nodup_append] at hnodup
      exact (List.nodup_cons.1 hnodup.2.1).1
    refine ⟨done ++ [p], by rw [List.append_assoc]; exact hdone, fun q hq ↦ ?_, fun q ↦ ?_⟩
    · have hne : p ≠ q := fun heq ↦ hfresh (heq ▸ hq)
      exact (getElem?_erase_of_ne hne).trans (hleft q (List.mem_cons_of_mem p hq))
    · by_cases hq : p = q
      · subst hq
        rw [Std.ExtTreeMap.getElem?_insert_self, if_pos (by simp), ← hf,
          hleft p List.mem_cons_self]
      · rw [getElem?_insert_of_ne hq, hseries q]
        simp [Ne.symm hq]
  · rintro d ⟨rfl, rfl⟩
    exact ⟨[], rfl, fun _ _ ↦ rfl, fun p ↦ by simp⟩
  · rintro _ d ⟨done, hdone, -, hseries⟩
    rw [List.append_nil] at hdone
    exact hdone ▸ hseries

theorem deleteAndView_keeps (hx : Exits Op.onFiles o (fun _ ↦ True) ioError E (fun _ ↦ True))
    (hwal : ∀ d w, P d → P { d with wal := w }) (hviews : ∀ d v, P d → P { d with views := v })
    (ids : List ℕ) (m : Manifest) (touched : List String) :
    Triple o P (do
      deleteSegments ids
      regenerateViews m touched) (fun _ ↦ P) E (fun _ ↦ True) :=
  .bind (.bind (Triple.forM (I := fun _ ↦ P) (fun _ _ ↦ Io.step_exits hx (fun _ _ ↦ trivial)
    fun d hd ↦ hwal d _ hd) _) fun _ ↦ Io.touch_exits hx fun _ _ ↦ trivial) fun _ ↦
    (Triple.forM (I := fun _ ↦ P) (fun _ _ ↦ Io.ignore_triple
      ((Io.touch_keeps _).bind fun _ ↦ Io.step_keeps fun d hd ↦ hviews d _ hd)) _).exits
      (fun _ _ ↦ id) fun _ _ ↦ trivial

/-- **Publishing** moves the staged files to `series/`. -/
theorem publish_files (hx : Exits Op.onFiles o (fun _ ↦ True) ioError E (fun _ ↦ True))
    (m : Manifest) {plan : Plan}
    {tmp before : Std.ExtTreeMap Path Parquet} (hnodup : plan.staged.Nodup)
    (hthere : ∀ p ∈ plan.staged, ∃ f, tmp[p]? = some f) :
    Triple o (fun d ↦ d.tmp = tmp ∧ d.series = before) (publish m plan)
      (fun _ d ↦ ∀ p, d.series[p]? = if p ∈ plan.staged then tmp[p]? else before[p]?) E
      (fun _ ↦ True) :=
  .bind (commit_files hx m _) fun _ ↦ .bind (promoteAll_files hx hnodup hthere) fun _ ↦
    deleteAndView_keeps hx (fun _ _ hd ↦ hd) (fun _ _ hd ↦ hd) _ m _

theorem Plan.Holds.published {plan : Plan} {first : ℕ} {d : Disk} (h : plan.Holds crc m wal first d)
    (hfirst : plan.ids.head? = some first) (hlast : plan.ids.getLast? = some plan.last)
    {before series : Std.ExtTreeMap Path Parquet}
    (hseries : ∀ p, series[p]? = if p ∈ plan.staged then d.tmp[p]? else before[p]?) :
    PublishedFiles crc m wal before plan.ids series first plan.last := by
  refine ⟨⟨hfirst, hlast⟩, fun f hf ↦ ?_, fun q hq ↦ ?_⟩
  · obtain ⟨p, hp, hin⟩ := h.files f hf
    have hmem : f.path first plan.last ∈ plan.staged := h.staged ▸ List.mem_map_of_mem hf
    exact ⟨p, by rw [hseries, if_pos hmem, hp], hin⟩
  · rw [hseries, if_neg]
    rw [h.staged, List.mem_map]
    rintro ⟨f, hf, heq⟩
    exact hq f hf heq

/-- The segments a flush is given, each once and in order. -/
def flushIds (segments : List ℕ) : List ℕ := canon (fun n : ℕ ↦ n) (fun n ↦ n) segments

theorem mem_flushIds {segments : List ℕ} {id : ℕ} : id ∈ flushIds segments ↔ id ∈ segments := by
  refine ⟨mem_of_mem_canon _ _, fun hid ↦ ?_⟩
  obtain ⟨id', hid', rfl⟩ := exists_mem_canon (fun n : ℕ ↦ n) (fun n ↦ n) hid
  exact hid'

/-- What a flush that returned has done. -/
structure Flushed (crc : Bytes → UInt32) (m : Manifest) (wal : Std.ExtTreeMap ℕ SegFile)
    (o : Oracle Op) (ids : List ℕ) (before : Std.ExtTreeMap Path Parquet) (outcome : FlushOutcome)
    (series : Std.ExtTreeMap Path Parquet) : Prop where
  /-- It has taken a first part of the segments, and all of them if nothing failed. -/
  taken : ∃ taken, taken <+: ids ∧ (taken = ids ∨ FailsOn Op.onFiles o) ∧
    outcome = expected crc m wal taken
  small : ∀ a ∈ acceptedIn crc m wal outcome.segmentsConsumed, a.record.ts.toNat < 2 ^ 63
  published : outcome.segmentsConsumed ≠ [] →
    ∃ first last, PublishedFiles crc m wal before outcome.segmentsConsumed series first last

/-- **A flush** returns what its segments say, or it has a reason to fail. -/
theorem run_files (config : Config) (now : ℕ) {segments : List ℕ}
    (hbounded : ∀ a ∈ acceptedIn crc m wal segments, a.Bounded)
    (hu64 : ∀ id ∈ segments, id ≤ u64Max)
    (before : Std.ExtTreeMap Path Parquet) :
    Triple o (fun d ↦ d.series = before ∧ d.wal = wal) (run crc config m now segments)
      (fun r d ↦ match r.2 with
        | .error e => FlushError crc m wal o config (flushIds segments) e
        | .ok outcome => Flushed crc m wal o (flushIds segments) before outcome d.series ∧
            StoredFiles crc m wal o config.flush outcome.segmentsConsumed)
      (fun _ _ ↦ False) (fun _ ↦ True) := by
  set ids := flushIds segments with hids
  have hclear : ∀ Q : Disk → Prop, IgnoresRuns Q →
      Triple o Q clearRuns (fun _ ↦ Q) (fun _ _ ↦ False) (fun _ ↦ True) := fun Q hQ ↦
    (clearRuns_triple hQ).exits (fun _ _ ↦ id) fun _ _ ↦ trivial
  have hmem : ∀ id ∈ ids, id ∈ segments := fun id ↦ mem_flushIds.1
  have hnone : ∀ (taken : List ℕ) (series : Std.ExtTreeMap Path Parquet), taken <+: ids →
      (taken = ids ∨ FailsOn Op.onFiles o) → (expected crc m wal taken).segmentsConsumed = [] →
      Flushed crc m wal o ids before (expected crc m wal taken) series ∧
        StoredFiles crc m wal o config.flush (expected crc m wal taken).segmentsConsumed := by
    intro taken series htaken hend hempty
    refine ⟨⟨⟨taken, htaken, hend, rfl⟩, ?_, fun hne ↦ absurd hempty hne⟩, ?_⟩
    · rw [hempty]
      exact nofun
    · rw [hempty]
      exact nofun
  rw [run, ← flushIds, ← hids]
  dsimp only
  by_cases hnil : ids = []
  · rw [if_pos hnil]
    refine .ret fun d hd ↦ ?_
    exact hnone [] d.series List.nil_prefix (.inl hnil.symm) rfl
  rw [if_neg hnil]
  refine .bind (hclear _ fun _ _ hd ↦ hd) fun _ ↦ .bind (.attempt (Q := fun r d ↦ match r with
      | .error e => FlushError crc m wal o config ids e
      | .ok r => PreparedFiles crc m wal o config.flush ids before r d)
    ((prepare_files config ?_ (fun a ha ↦ hbounded a (acceptedIn_mono hmem ha))
      (fun id hid ↦ hu64 id (hmem id hid)) before).pre ?_)) fun r ↦ ?_
  · exact (pairwise_canon (fun n : ℕ ↦ n) (fun n ↦ n) segments).imp fun hlt ↦ hlt.ne
  · rintro d ⟨hd, rfl⟩
    exact ⟨hd, fun _ _ ↦ rfl⟩
  cases r with
  | error e => exact .bind (hclear _ fun _ _ hd ↦ hd) fun _ ↦ .ret fun _ hd ↦ hd
  | ok r =>
    cases r with
    | inl outcome =>
      refine .bind (hclear _ fun _ _ hd ↦ hd) fun _ ↦ .ret ?_
      rintro d ⟨-, taken, htaken, hend, rfl, hempty⟩
      exact hnone taken d.series htaken hend hempty
    | inr plan =>
      refine .intro ?_
      rintro d₁ ⟨hd₁, taken, htaken, hend, houtcome, hconsumed, hsub, hstored, first, hfirst, hlast,
        hplan⟩
      have hpaths : plan.staged.Nodup := by
        rw [hplan.staged]
        exact paths_nodup (partitions_hourFiles ranked_acceptedIn)
          (hu64 _ (hmem _ (hsub _ (List.mem_of_head? hfirst))))
          (hu64 _ (hmem _ (hsub _ (List.mem_of_getLast? hlast))))
      have hthere : ∀ p ∈ plan.staged, ∃ f, d₁.tmp[p]? = some f := by
        rw [hplan.staged, List.forall_mem_map]
        exact fun f hf ↦ (hplan.files f hf).imp fun _ ↦ And.left
      refine .bind (.attempt (Q := fun r d ↦ match r with
        | .error e => FlushError crc m wal o config ids e
        | .ok _ => ∀ p, d.series[p]? = if p ∈ plan.staged then d₁.tmp[p]? else before[p]?)
        ((publish_files (FlushError.exits crc m wal config ids) _ hpaths hthere).pre ?_)) fun r ↦
          .bind (hclear _ ?_) fun _ ↦ .ret ?_
      · rintro d rfl
        exact ⟨rfl, hd₁⟩
      · cases r <;> exact fun _ _ hd ↦ hd
      · intro d hd
        cases r with
        | error e => exact hd
        | ok _ =>
          change Flushed crc m wal o ids before plan.outcome d.series ∧
            StoredFiles crc m wal o config.flush plan.outcome.segmentsConsumed
          refine ⟨⟨⟨taken, htaken, hend, houtcome⟩, ?_, fun _ ↦ ⟨first, plan.last, ?_⟩⟩,
            hconsumed ▸ hstored⟩
          · rw [hconsumed]
            exact hplan.small
          · rw [hconsumed]
            exact hplan.published hfirst hlast hd

end Triples

/-! ## The files of a flush -/

/-- Sizes within the widths they are stored in: the series of an accepted frame can be a directory,
the frame is shorter than 4 GiB, and ids and offsets have 64 bits. -/
structure InWidth (crc : Bytes → UInt32) (m : Manifest) (wal : Std.ExtTreeMap ℕ SegFile)
    (segments : List ℕ) : Prop where
  names : ∀ a ∈ acceptedIn crc m wal segments, (utf8 a.record.series).length ≤ 255
  frames : ∀ a ∈ acceptedIn crc m wal segments, a.frame.length < 2 ^ 32
  ids : ∀ id ∈ segments, id ≤ u64Max
  lengths : ∀ id ∈ segments, (segmentBytesIn wal id).length ≤ u64Max

section Output

variable {crc : Bytes → UInt32} {m : Manifest} {wal : Std.ExtTreeMap ℕ SegFile} {segments : List ℕ}

theorem InWidth.bounded (h : InWidth crc m wal segments) :
    ∀ a ∈ acceptedIn crc m wal segments, a.Bounded := by
  intro a ha
  obtain ⟨id, hid, haccepted⟩ := List.mem_flatMap.1 ha
  refine ⟨h.names a ha, h.frames a ha, ?_, ?_⟩
  · rw [accepted_arrivals.1 a haccepted]
    exact h.ids id hid
  · exact (accepted_offset_le haccepted).trans (h.lengths id hid)

/-- A flush that has consumed segments reports their frames. -/
theorem expected_eq {taken : List ℕ} (h : (expected crc m wal taken).segmentsConsumed ≠ []) :
    expected crc m wal taken = outcomeOf (expected crc m wal taken).segmentsConsumed
      (acceptedIn crc m wal (expected crc m wal taken).segmentsConsumed)
      (countsIn crc m wal taken) := by
  by_cases hnoop : readable wal taken = [] ∨
      acceptedIn crc m wal (readable wal taken) = [] ∧ countsIn crc m wal taken = 0
  · rw [expected, if_pos hnoop] at h
    exact absurd rfl h
  · rw [expected, if_neg hnoop]
    rfl

/-- A flush that returns has done what its segments say. -/
theorem InWidth.flushed {config : Config} {now : ℕ} {o : Oracle Op} {w w' : World Disk}
    {m' : Manifest} {outcome : FlushOutcome} (hwidth : InWidth crc m w.disk.wal segments)
    (hrun : run crc config m now segments o w = (.ok (m', .ok outcome), w')) :
    Flushed crc m w.disk.wal o (flushIds segments) w.disk.series outcome w'.disk.series := by
  have hpost := (run_files config now hwidth.bounded hwidth.ids w.disk.series).of_ok ⟨rfl, rfl⟩ hrun
  exact hpost.1

/-- **The output of a flush.** Of each group and each hour that has an accepted frame in the
segments consumed there is one file, and no other file changes. Its rows are the frames of the group
and hour in the order of timestamp and id, of equal ones the first to arrive; the rows written and
dropped are the frames accepted. Another run over the same segments, whatever its budget and fan-in,
writes the same rows to the same files; and if nothing fails in either, it reports the same
outcome. -/
theorem flush_output {config : Config} {now : ℕ} {o : Oracle Op} {w w' : World Disk} {m' : Manifest}
    {outcome : FlushOutcome} (hwidth : InWidth crc m w.disk.wal segments)
    (hrun : run crc config m now segments o w = (.ok (m', .ok outcome), w'))
    (hconsumed : outcome.segmentsConsumed ≠ []) :
    ∃ first last fs, outcome.segmentsConsumed.head? = some first ∧
      outcome.segmentsConsumed.getLast? = some last ∧
      Partitions (acceptedIn crc m w.disk.wal outcome.segmentsConsumed) fs ∧
      outcome.filesWritten = fs.map HourFile.written ∧
      (∀ f ∈ fs, ∃ p, w'.disk.series[f.path first last]? = some p ∧ f.IsIn m p) ∧
      (∀ q, (∀ f ∈ fs, f.path first last ≠ q) → w'.disk.series[q]? = w.disk.series[q]?) ∧
      outcome.rowsWritten = (fs.map fun f ↦ f.rows.length).sum ∧
      outcome.rowsWritten + outcome.rowsDeduplicated =
        (acceptedIn crc m w.disk.wal outcome.segmentsConsumed).length ∧
      ∀ (config₂ : Config) (now₂ : ℕ) (o₂ : Oracle Op) (clock₂ : ℕ) (w₂ : World Disk)
        (m₂ : Manifest) (outcome₂ : FlushOutcome),
        run crc config₂ m now₂ segments o₂ ⟨w.disk, clock₂⟩ = (.ok (m₂, .ok outcome₂), w₂) →
        (outcome₂.segmentsConsumed = outcome.segmentsConsumed →
          outcome₂.filesWritten = outcome.filesWritten ∧
          outcome₂.rowsWritten = outcome.rowsWritten ∧
          outcome₂.rowsDeduplicated = outcome.rowsDeduplicated ∧
          ∀ f ∈ fs, w₂.disk.series[f.path first last]?.map Parquet.rows =
            w'.disk.series[f.path first last]?.map Parquet.rows) ∧
        (¬ Fails o → ¬ Fails o₂ → outcome₂ = outcome) := by
  have hflushed := hwidth.flushed hrun
  obtain ⟨taken, -, hend, rfl⟩ := hflushed.taken
  obtain ⟨first, last, hpublished⟩ := hflushed.published hconsumed
  set consumed := (expected crc m w.disk.wal taken).segmentsConsumed with hset
  set all := acceptedIn crc m w.disk.wal consumed
  have hpartitions : Partitions all (hourFiles all) := partitions_hourFiles ranked_acceptedIn
  have hexpected : expected crc m w.disk.wal taken =
      outcomeOf consumed all (countsIn crc m w.disk.wal taken) := expected_eq hconsumed
  refine ⟨first, last, hourFiles all, hpublished.range.1, hpublished.range.2, hpartitions, ?_,
    hpublished.files, hpublished.others, ?_, ?_,
      fun config₂ now₂ o₂ clock₂ w₂ m₂ outcome₂ hrun₂ ↦ ?_⟩
  · rw [hexpected]
    rfl
  · rw [hexpected]
    rfl
  · rw [hexpected]
    exact Nat.add_sub_cancel' hpartitions.sum_length_le
  have hflushed₂ := InWidth.flushed (w := ⟨w.disk, clock₂⟩) hwidth hrun₂
  obtain ⟨taken₂, -, hend₂, rfl⟩ := hflushed₂.taken
  refine ⟨fun hsame ↦ ?_, fun hfails hfails₂ ↦ ?_⟩
  · have hexpected₂ : expected crc m w.disk.wal taken₂ =
        outcomeOf _ _ (countsIn crc m w.disk.wal taken₂) := expected_eq (hsame ▸ hconsumed)
    rw [hsame] at hexpected₂
    obtain ⟨first₂, last₂, hpublished₂⟩ := hflushed₂.published (hsame ▸ hconsumed)
    rw [hsame] at hpublished₂
    obtain rfl : first₂ = first := by
      simpa [hpublished₂.range.1] using hpublished.range.1
    obtain rfl : last₂ = last := by
      simpa [hpublished₂.range.2] using hpublished.range.2
    rw [hexpected, hexpected₂]
    refine ⟨rfl, rfl, rfl, fun f hf ↦ ?_⟩
    obtain ⟨p, hp, hin⟩ := hpublished.files f hf
    obtain ⟨p₂, hp₂, hin₂⟩ := hpublished₂.files f hf
    rw [hp, hp₂, Option.map_some, Option.map_some, hin.rows, hin₂.rows]
  · rw [hend.resolve_right fun h ↦ hfails h.fails, hend₂.resolve_right fun h ↦ hfails₂ h.fails]

end Output

/-- The outcome a run has returned, if it has. -/
def outcome? (r : Outcome Error (Manifest × Except Error FlushOutcome) × World Disk) :
    Option FlushOutcome :=
  match r.1 with
  | .ok (_, .ok outcome) => some outcome
  | _ => none

theorem eq_of_outcome? {r : Outcome Error (Manifest × Except Error FlushOutcome) × World Disk}
    {outcome : FlushOutcome} (h : outcome? r = some outcome) :
    ∃ m' w', r = (.ok (m', .ok outcome), w') := by
  obtain ⟨⟨m', _ | outcome'⟩ | _ | _, w'⟩ := r <;> cases h
  exact ⟨m', w', rfl⟩

private def dupFrame : Bytes := frameBytes crc32 (payloadBytes ⟨7, 0, "t", "a", [], [], ""⟩)

private def dupDisk : Disk :=
  { wal := {(1, ⟨encodeSegmentHeader 1 ++ dupFrame, 0⟩),
    (2, ⟨encodeSegmentHeader 2 ++ dupFrame, 0⟩)} }

private def dupManifest : Manifest := { series := {("t", [⟨0, []⟩])} }

private def dupOutcome : FlushOutcome where
  segmentsConsumed := [1, 2]
  filesWritten := [⟨"t", 0, "hour=1970-01-01T00", 1⟩]
  rowsWritten := 1
  rowsDeduplicated := 1

private theorem dup_inWidth : InWidth crc32 dupManifest dupDisk.wal [1, 2] where
  names := by decide +kernel
  frames := by decide +kernel
  ids := by decide
  lengths := by decide +kernel

/-- One reading in two segments: one row, with everything in memory and with a spilled run. -/
theorem flush_output_duplicate :
    ∃ m' w' m₂ w₂ first last fs,
      run crc32 {} dupManifest 0 [1, 2] noFault ⟨dupDisk, 0⟩ = (.ok (m', .ok dupOutcome), w') ∧
      run crc32 { flush := { memoryBudgetBytes := 1, mergeFanIn := 2 } } dupManifest 0
        [1, 2] noFault ⟨dupDisk, 0⟩ = (.ok (m₂, .ok dupOutcome), w₂) ∧
      Partitions (acceptedIn crc32 dupManifest dupDisk.wal [1, 2]) fs ∧
      dupOutcome.filesWritten = fs.map HourFile.written ∧
      ∀ f ∈ fs, w₂.disk.series[f.path first last]?.map Parquet.rows =
        w'.disk.series[f.path first last]?.map Parquet.rows := by
  obtain ⟨m', w', hrun⟩ := eq_of_outcome?
    (show outcome? (run crc32 {} dupManifest 0 [1, 2] noFault ⟨dupDisk, 0⟩) = some dupOutcome by
      decide +kernel)
  obtain ⟨m₂, w₂, hrun₂⟩ := eq_of_outcome?
    (show outcome? (run crc32 { flush := { memoryBudgetBytes := 1, mergeFanIn := 2 } } dupManifest 0
      [1, 2] noFault ⟨dupDisk, 0⟩) = some dupOutcome by decide +kernel)
  obtain ⟨first, last, fs, -, -, hfs, hwritten, -, -, -, -, hsame⟩ :=
    flush_output dup_inWidth hrun (by decide)
  exact ⟨m', w', m₂, w₂, first, last, fs, hrun, hrun₂, hfs, hwritten,
    ((hsame _ _ _ _ _ _ _ hrun₂).1 rfl).2.2.2⟩

end Orc
