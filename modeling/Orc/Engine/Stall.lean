import Orc.Engine.Ingest
import Orc.Flush.Output

/-!
# Records that stall the flush

Where no operation fails, a flush can only fail for what its segments hold. A frame that cannot be
decoded, or does not fit its schema, is rejected when its segment is read. A timestamp is not looked
at there: one that does not fit the signed column of the output is refused by the row builder, in
the middle of the merge, and fails the flush. Since a failed flush consumes nothing, the next one
fails in the same way.

## The crate

The crate that writes the files is outside the model, and it has a limit of its own: it numbers the
row groups of a file by signed 16-bit integers and refuses more. `Crate` is any behaviour of it, and
`Crate.Limited` what it documents, stated for the files that the flush is about to write only, since
other data might make it refuse for other reasons.

So a flush returns exactly when every accepted timestamp fits, and no hour of a group has too many
rows (`flush_returns_iff`). The accept window does not ensure the first: while the clock reads
before its lower bound it has no upper bound (`flush_stalled`).

Both directions are needed. That a flush returns under the conditions is what an operator relies on;
that it fails without them is what makes the stall permanent, because the log does not give back
what it has accepted, and a later flush takes the segments of the failed one again, with more behind
them. The crate enters as an oracle (`Crate.oracle`), so that the results about flushes under faults
apply to it unchanged.
-/

namespace Orc

open Bytes Fault Order

section Frames

variable {crc : Bytes → UInt32} {m : Manifest} {wal : Std.ExtTreeMap ℕ SegFile} {ids : List ℕ}

private theorem mem_acceptedIn_readable {a : Accepted} :
    a ∈ acceptedIn crc m wal (readable wal ids) ↔ a ∈ acceptedIn crc m wal ids := by
  refine ⟨acceptedIn_mono fun id hid ↦ List.mem_of_mem_filter hid, fun ha ↦ ?_⟩
  obtain ⟨id, hid, ha⟩ := List.mem_flatMap.1 ha
  refine List.mem_flatMap.2 ⟨id, List.mem_filter.2 ⟨hid, ?_⟩, ha⟩
  cases hheader : parseSegmentHeader (segmentBytesIn wal id) with
  | ok segment => rfl
  | error e =>
    rw [accepted, segmentItems, SegmentReader.new, hheader] at ha
    cases ha

private theorem mem_acceptedIn_flushIds {segments : List ℕ} {a : Accepted} :
    a ∈ acceptedIn crc m wal (flushIds segments) ↔ a ∈ acceptedIn crc m wal segments :=
  ⟨acceptedIn_mono fun _ ↦ mem_flushIds.1, acceptedIn_mono fun _ ↦ mem_flushIds.2⟩

/-- What a flush reports that has taken all its segments: those that can be read are consumed,
unless there is nothing to do. -/
theorem expected_consumed (ids : List ℕ) :
    (expected crc m wal ids).segmentsConsumed = readable wal ids ∨ expected crc m wal ids = {} := by
  rw [expected]
  split_ifs with hnoop
  · rcases hnoop with hnil | ⟨-, hzero⟩
    · exact .inl hnil.symm
    · rw [hzero]
      exact .inr rfl
  · exact .inl rfl

private theorem expected_counts (ids : List ℕ) :
    ((expected crc m wal ids).framesRejected, (expected crc m wal ids).bytesSkipped) =
      countsIn crc m wal ids := by
  rw [expected]
  split_ifs <;> rfl

private theorem acceptedIn_of_expected_empty (h : expected crc m wal ids = {}) :
    acceptedIn crc m wal (readable wal ids) = [] := by
  by_contra hne
  have hread : readable wal ids ≠ [] := fun hnil ↦ hne (by rw [hnil]; rfl)
  rw [expected, if_neg (by rintro (hnil | ⟨hnil, -⟩) <;> contradiction)] at h
  exact hread (congrArg FlushOutcome.segmentsConsumed h)

end Frames

/-! ## The crate -/

/-- What the Parquet crate does with its calls: which of them it carries out. -/
abbrev Crate := CrateCall → Bool

/-- No call of the file system fails, and the crate answers its own. -/
def Crate.oracle (crate : Crate) : Oracle Op
  | _, .parquet call => if crate call then .done else .fails 0
  | _, _ => .done

/-- The row groups of a file are numbered by 16-bit signed integers. -/
def maxRowGroups : ℕ := 2 ^ 15

/-- The limit of the crate, for the files of a flush: it takes a row group exactly as long as it has
a number for it, and nothing else that it is given makes it refuse. -/
structure Crate.Limited (crate : Crate) (m : Manifest) (flush : FlushConfig)
    (files : List HourFile) : Prop where
  opens : ∀ f ∈ files, crate (.new (f.keys m)) = true
  takes : ∀ f ∈ files, ∀ k < groupCount flush.groupRows f.fileRows,
    (∀ call ∈ groupCalls f.group.1 (f.keys m) flush.groupRows f.fileRows k, crate call = true) ↔
      k < maxRowGroups
  closes : ∀ f ∈ files, groupCount flush.groupRows f.fileRows ≤ maxRowGroups →
    crate (.close (f.keys m) (rowGroups f.group.1 (f.keys m) flush.groupRows f.fileRows
      (groupCount flush.groupRows f.fileRows))) = true

namespace Crate

variable {crate : Crate} {m : Manifest} {flush : FlushConfig} {files : List HourFile}

theorem done_iff {call : CrateCall} : Done crate.oracle (.parquet call) ↔ crate call = true := by
  simp [Done, oracle]

theorem failed_iff {call : CrateCall} :
    Failed crate.oracle (.parquet call) ↔ crate call = false := by
  cases hcall : crate call <;> simp [Failed, oracle, hcall]

private theorem not_failsOn (crate : Crate) : ¬ FailsOn Op.onFiles crate.oracle := by
  rintro ⟨t, label, n, hlabel, ho⟩
  cases label with
  | parquet call => cases hlabel
  | _ => cases ho

private theorem not_crashes (crate : Crate) : ¬ Crashes crate.oracle := by
  rintro ⟨t, label, n, ho⟩
  cases label with
  | parquet call =>
    rw [oracle] at ho
    split_ifs at ho
  | _ => cases ho

/-- **A file within the limit** is taken, and no other. -/
theorem Limited.takes_iff (h : crate.Limited m flush files) {f : HourFile} (hf : f ∈ files) :
    (∀ call ∈ f.calls m flush, crate call = true) ↔
      f.rows.length ≤ maxRowGroups * flush.groupRows := by
  have hsize : 0 < flush.groupRows := Nat.lt_of_lt_of_le Nat.one_pos (Nat.le_max_right _ _)
  have hlength : f.fileRows.length = f.rows.length := List.length_map _
  rw [HourFile.calls, forall_mem_fileCalls, ← hlength, ← groupCount_le_iff hsize]
  constructor
  · rintro ⟨-, hgroups, -⟩
    by_contra hlt
    have hover := Nat.not_le.1 hlt
    exact absurd ((h.takes f hf _ hover).1 (hgroups _ hover)) (Nat.lt_irrefl _)
  · intro hle
    exact ⟨h.opens f hf, fun k hk ↦ (h.takes f hf k hk).2 (Nat.lt_of_lt_of_le hk hle),
      h.closes f hf hle⟩

end Crate

/-- **A flush returns exactly when every accepted timestamp fits and every file has few enough row
groups.** If no call of the file system fails, the crate refuses nothing within its limit and the
segments are there, then under a validated config a flush of segments with any bytes returns, having
consumed every segment that can be read or found nothing to do, and having counted every frame it
rejected, if and only if no accepted frame has a timestamp of 2^63 or more, and no hour of a group
has more rows than fit in the row groups of a file. -/
theorem flush_returns_iff {crc : Bytes → UInt32} {config : Config} {lower : String → String}
    {m : Manifest} {segments : List ℕ} {w : World Disk} {crate : Crate}
    (hvalid : config.validate lower = .ok ()) (hthere : ∀ id ∈ segments, id ∈ w.disk.wal)
    (hwidth : InWidth crc m w.disk.wal segments)
    (hcrate : crate.Limited m config.flush
      (hourFiles (acceptedIn crc m w.disk.wal (readable w.disk.wal (flushIds segments)))))
    (now : ℕ) :
    (∃ m' outcome w', run crc config m now segments crate.oracle w = (.ok (m', .ok outcome), w') ∧
      (outcome.segmentsConsumed = readable w.disk.wal (flushIds segments) ∨ outcome = {}) ∧
      (outcome.framesRejected, outcome.bytesSkipped) =
        countsIn crc m w.disk.wal (flushIds segments)) ↔
    (∀ a ∈ acceptedIn crc m w.disk.wal segments, a.record.ts.toNat < 2 ^ 63) ∧
      ∀ f ∈ hourFiles (acceptedIn crc m w.disk.wal (readable w.disk.wal (flushIds segments))),
        f.rows.length ≤ maxRowGroups * config.flush.groupRows := by
  have htriple := run_files (o := crate.oracle) config now hwidth.bounded hwidth.ids w.disk.series
  constructor
  · rintro ⟨m', outcome, w', hrun, -, -⟩
    obtain ⟨hflushed, hstored⟩ : Flushed crc m w.disk.wal crate.oracle (flushIds segments)
        w.disk.series outcome w'.disk.series ∧ _ := htriple.of_ok ⟨rfl, rfl⟩ hrun
    obtain ⟨taken, -, hend, rfl⟩ := hflushed.taken
    obtain rfl := hend.resolve_right crate.not_failsOn
    have hcases : (expected crc m w.disk.wal _).segmentsConsumed = _ ∨ _ :=
      expected_consumed (flushIds segments)
    rcases hcases with hconsumed | hempty
    · refine ⟨fun a ha ↦ ?_, fun f hf ↦ (hcrate.takes_iff hf).1 fun call hcall ↦ ?_⟩
      · rw [← mem_acceptedIn_flushIds, ← mem_acceptedIn_readable] at ha
        exact hflushed.small a (hconsumed ▸ ha)
      · exact Crate.done_iff.1 (hstored f (hconsumed ▸ hf) call hcall)
    · have hnone := acceptedIn_of_expected_empty hempty
      refine ⟨fun a ha ↦ ?_, ?_⟩
      · rw [← mem_acceptedIn_flushIds, ← mem_acceptedIn_readable, hnone] at ha
        cases ha
      · rw [hnone]
        exact nofun
  · rintro ⟨hsmall, hfew⟩
    obtain ⟨⟨m', r⟩, w', hrun, hpost⟩ :=
      htriple.returns (fun _ _ ↦ not_false) crate.not_crashes ⟨rfl, rfl⟩
    cases r with
    | error e =>
      exfalso
      cases hpost with
      | io hfails => exact crate.not_failsOn hfails
      | missing hid hnone =>
        have hmem := Std.ExtTreeMap.isSome_getElem?_iff_mem.2 (hthere _ (mem_flushIds.1 hid))
        rw [hnone] at hmem
        cases hmem
      | codec hunknown => exact hunknown (Config.validate_compression hvalid)
      | large ha hlarge =>
        have := hsmall _ (mem_acceptedIn_flushIds.1 (mem_acceptedIn_readable.1 ha))
        omega
      | refused hend hf hcall hfailed =>
        obtain rfl := hend.resolve_right crate.not_failsOn
        have htaken := (hcrate.takes_iff hf).2 (hfew _ hf) _ hcall
        rw [Crate.failed_iff.1 hfailed] at htaken
        cases htaken
    | ok outcome =>
      obtain ⟨taken, -, hend, rfl⟩ := hpost.1.taken
      obtain rfl := hend.resolve_right crate.not_failsOn
      exact ⟨m', _, w', hrun, expected_consumed _, expected_counts _⟩

/-! ## A timestamp past the signed range -/

private def lateConfig : Config := { series := [⟨"t", []⟩] }

private def lateManifest : Manifest := { series := {("t", [⟨0, []⟩])} }

private def lateHandle : SeriesHandle := ⟨"t", [], 0⟩

private def lateEngine : Engine :=
  ⟨lateConfig, {("t", lateHandle)}, 946684800000000, 86400000000⟩

private def lateFrame (ts : UInt64) : Bytes :=
  frameBytes crc32 (payloadBytes ⟨ts, 0, "t", "a", [], [], ""⟩)

private def lateDisk (ts : UInt64) : Disk :=
  { wal := {(1, ⟨encodeSegmentHeader 1 ++ lateFrame ts, 0⟩)} }

private theorem late_inWidth : InWidth crc32 lateManifest (lateDisk 7).wal [1] where
  names := by decide +kernel
  frames := by decide +kernel
  ids := by decide
  lengths := by decide +kernel

/-- A crate that takes every row group that it has a number for. -/
private def plainCrate : Crate
  | .nextRowGroup _ written => written.length < maxRowGroups
  | _ => true

private theorem plainCrate_limited (m : Manifest) (flush : FlushConfig) (files : List HourFile) :
    Crate.Limited plainCrate m flush files where
  opens _ _ := rfl
  takes f _ k _ := by
    simp [groupCalls, plainCrate, rowGroups]
  closes _ _ _ := rfl

/-- A record of the first microseconds is flushed. -/
theorem flush_returns_iff_early :
    ∃ m' outcome w', run crc32 lateConfig lateManifest 0 [1] plainCrate.oracle ⟨lateDisk 7, 0⟩ =
      (.ok (m', .ok outcome), w') := by
  have hiff := flush_returns_iff (w := ⟨lateDisk 7, 0⟩)
    (show lateConfig.validate id = .ok () by decide +kernel) (by decide +kernel) late_inWidth
    (plainCrate_limited _ _ _) 0
  obtain ⟨m', outcome, w', hrun, -⟩ := hiff.2 ⟨by decide +kernel, by decide +kernel⟩
  exact ⟨m', outcome, w', hrun⟩

/-- The first flush of the segment, and the one after it. -/
private def lateFlush (w : World Disk) :
    Outcome Error (Manifest × Except Error FlushOutcome) × World Disk :=
  run crc32 lateConfig lateManifest 0 [1] noFault w

private def lateWorld : World Disk := ⟨lateDisk (2 ^ 63), 0⟩

/-- **A record that stalls the flush.** The engine is opened with a validated config, and appends a
record with the timestamp 2^63 while the clock reads 0. The flush of its segment fails, though every
operation is carried out; the segment stays, and the next flush fails as well. -/
theorem flush_stalled :
    ∃ w₁ w₂, lateConfig.validate id = .ok () ∧
      Manifest.reconcile {} lateConfig = .ok (lateManifest, true) ∧
      Engine.new lateConfig lateManifest = .ok lateEngine ∧
      lateEngine.handles["t"]? = some lateHandle ∧
      lateEngine.appendFrame crc32 0 lateHandle ⟨2 ^ 63, "a", [], [], ""⟩ =
        .ok (lateFrame (2 ^ 63)) ∧
      lateFlush lateWorld = (.ok (lateManifest, .error (.config (.tsTooLarge (2 ^ 63)))), w₁) ∧
      w₁.disk.wal = lateWorld.disk.wal ∧
      lateFlush w₁ = (.ok (lateManifest, .error (.config (.tsTooLarge (2 ^ 63)))), w₂) := by
  have hfails : ∀ w, (lateFlush w).1 = .ok (lateManifest, .error (.config (.tsTooLarge (2 ^ 63)))) →
      lateFlush w =
        (.ok (lateManifest, .error (.config (.tsTooLarge (2 ^ 63)))), (lateFlush w).2) :=
    fun w h ↦ h ▸ rfl
  exact ⟨_, _, by decide +kernel, by decide +kernel, by decide +kernel, by decide +kernel,
    by decide +kernel, hfails lateWorld (by decide +kernel), by decide +kernel,
    hfails (lateFlush lateWorld).2 (by decide +kernel)⟩

end Orc
