import Orc.Wal.Writer

/-!
# What the log writer does under the lock

For each function of the writer, exactly how it may leave the log: when it returns, when it fails,
and where it may be stopped. A failed roll is told apart by the operation that failed, since that
decides what it leaves behind: nothing, or a file of the next segment's name.

Everything later is derived from these triples; the programs are not unfolded again.

They are stated as equations for the log afterwards, not as properties of it, so that an invariant
can be checked against them whatever it is about. The cases of `RollFails`, `AppendFails` and
`Closes` are the constructors that `Change` in `Orc.Wal.Runs` is put together from.
-/

namespace Orc

open Bytes Fault

/-! ## What a change does to the files -/

theorem getElem?_updateFile (id k : ℕ) (g : SegFile → SegFile) (dir : Std.ExtTreeMap ℕ SegFile) :
    (updateFile id g dir)[k]? = if id = k then dir[k]?.map g else dir[k]? := by
  unfold updateFile
  by_cases hk : id = k
  · subst hk
    rw [if_pos rfl]
    cases hf : dir[id]? with
    | none => simp [hf]
    | some f => simp
  · rw [if_neg hk]
    cases hf : dir[id]? with
    | none => rfl
    | some f => simp [Std.ExtTreeMap.getElem?_insert, hk]

theorem mem_updateFile {id k : ℕ} {g : SegFile → SegFile} {dir : Std.ExtTreeMap ℕ SegFile} :
    k ∈ updateFile id g dir ↔ k ∈ dir := by
  rw [← Std.ExtTreeMap.isSome_getElem?_iff_mem, ← Std.ExtTreeMap.isSome_getElem?_iff_mem,
    getElem?_updateFile]
  split_ifs
  · rw [Option.isSome_map]
  · rfl

theorem updateFile_self (id : ℕ) {g : SegFile → SegFile} {dir : Std.ExtTreeMap ℕ SegFile}
    (h : ∀ f, dir[id]? = some f → g f = f) : updateFile id g dir = dir := by
  refine Std.ExtTreeMap.ext_getElem? fun k ↦ ?_
  rw [getElem?_updateFile]
  split_ifs with hk
  · subst hk
    cases hf : dir[id]? with
    | none => rfl
    | some f => rw [Option.map_some, h f hf]
  · rfl

theorem updateFile_insert (id : ℕ) (g : SegFile → SegFile) (f : SegFile)
    (dir : Std.ExtTreeMap ℕ SegFile) : updateFile id g (dir.insert id f) = dir.insert id (g f) := by
  refine Std.ExtTreeMap.ext_getElem? fun k ↦ ?_
  rw [getElem?_updateFile]
  by_cases hk : id = k
  · subst hk
    simp
  · simp [Std.ExtTreeMap.getElem?_insert, hk]

namespace Log

/-- Bytes have been written to the active segment's file, and its buffer is now `y`. -/
def moved (log : Log) (a : Active) (x y : Bytes) : Log :=
  (log.appendFile a.id x).setActive (some { a with buf := y })

/-- The buffer is drained and the file synced. -/
def settled (log : Log) (a : Active) : Log :=
  ((log.drained a a.buf.length).syncFile a.id).setActive
    (some { a with buf := [], synced := a.bytes })

/-- A segment file has been created, with part of its header. -/
def newFile (log : Log) (id n synced : ℕ) : Log :=
  { log with dir := log.dir.insert id ⟨(encodeSegmentHeader id).take n, synced⟩ }

/-- The next segment is active. -/
def rolled (log : Log) (a : Active) : Log :=
  ((log.settled a).newFile (a.id + 1) segmentHeaderBytes segmentHeaderBytes).setActive
    (some ⟨a.id + 1, [], segmentHeaderBytes, segmentHeaderBytes⟩)

theorem drained_eq (log : Log) (a : Active) (n : ℕ) :
    log.drained a n = log.moved a (a.buf.take n) (a.buf.drop n) := rfl

theorem appendFile_nil (log : Log) (id : ℕ) : log.appendFile id [] = log := by
  have hdir : updateFile id (SegFile.append []) log.dir = log.dir :=
    updateFile_self id fun f _ ↦ by simp [SegFile.append]
  simp only [appendFile, hdir]

theorem moved_nil {log : Log} {a : Active} (h : log.state.active = some a) :
    log.moved a [] a.buf = log := by
  rw [moved, appendFile_nil]
  obtain ⟨dir, ⟨active, stop, appended, needsRoll⟩, acked, failed, lost⟩ := log
  dsimp only at h
  subst h
  rfl

theorem appendFile_moved (log : Log) (a : Active) (x y b : Bytes) :
    (log.moved a x y).appendFile a.id b = log.moved a (x ++ b) y := by
  have hdir : updateFile a.id (SegFile.append b) (updateFile a.id (SegFile.append x) log.dir) =
      updateFile a.id (SegFile.append (x ++ b)) log.dir := by
    refine Std.ExtTreeMap.ext_getElem? fun k ↦ ?_
    simp only [getElem?_updateFile]
    split_ifs
    · rw [Option.map_map]
      congr 1
      funext f
      simp [SegFile.append]
    · rfl
  simp only [moved, appendFile, setActive, hdir]

private theorem moved_moved (log : Log) (a : Active) (x y x' y' : Bytes) :
    (log.moved a x y).moved { a with buf := y } x' y' = log.moved a (x ++ x') y' := by
  rw [← appendFile_moved]
  rfl

private theorem appendFile_newFile (log : Log) (id n : ℕ) :
    (log.newFile id 0 0).appendFile id ((encodeSegmentHeader id).take n) = log.newFile id n 0 := by
  simp [newFile, appendFile, updateFile_insert, SegFile.append]

private theorem syncFile_newFile (log : Log) (id : ℕ) :
    (log.newFile id segmentHeaderBytes 0).syncFile id =
      log.newFile id segmentHeaderBytes segmentHeaderBytes := by
  simp [newFile, syncFile, updateFile_insert, SegFile.sync]

end Log

/-! ## What the programs do -/

/-- One of the steps of creating a segment that come after the file is there failed. -/
def LateFailed (o : Oracle Op) : Prop :=
  Failed o .segmentHeader ∨ Failed o .segmentSync ∨ Failed o .walDirSync ∨ Failed o .segmentClone

/-- How a roll of segment `a` that fails leaves the log, by where it failed. -/
inductive RollFails (o : Oracle Op) (a : Active) (log : Log) : Log → Prop
  | drain {n : ℕ} (hn : n ≤ a.buf.length) (hbuf : a.buf ≠ []) (h : Failed o .walWrite) :
      RollFails o a log (log.drained a n)
  | sync (hbuf : a.buf = [] ∨ Done o .walWrite) (h : Failed o .walSync) :
      RollFails o a log (log.drained a a.buf.length)
  | create (hbuf : a.buf = [] ∨ Done o .walWrite) (hsync : Done o .walSync)
      (h : Failed o .segmentCreate ∨ a.id + 1 ∈ log.dir) : RollFails o a log (log.settled a)
  | late {n k : ℕ} (hbuf : a.buf = [] ∨ Done o .walWrite) (hsync : Done o .walSync)
      (hcreate : Done o .segmentCreate) (hnew : a.id + 1 ∉ log.dir)
      (h : LateFailed o) : RollFails o a log ((log.settled a).newFile (a.id + 1) n k)

/-- Where a roll of segment `a` may be stopped. -/
inductive RollStops (a : Active) (log : Log) : Log → Prop
  | drain {n : ℕ} (hn : n ≤ a.buf.length) : RollStops a log (log.drained a n)
  | settled : RollStops a log (log.settled a)
  | created {n k : ℕ} (hnew : a.id + 1 ∉ log.dir) :
      RollStops a log ((log.settled a).newFile (a.id + 1) n k)

section Triples

variable {o : Oracle Op} {log : Log} {a : Active}

theorem flushBuf_triple (ha : log.state.active = some a) :
    Triple o (· = log) (flushBuf a)
      (fun _ log' ↦ (a.buf = [] ∨ Done o .walWrite) ∧ log' = log.drained a a.buf.length)
      (fun _ log' ↦ a.buf ≠ [] ∧ Failed o .walWrite ∧ ∃ n ≤ a.buf.length, log' = log.drained a n)
      (fun log' ↦ ∃ n ≤ a.buf.length, log' = log.drained a n) := by
  unfold flushBuf
  by_cases hbuf : a.buf = []
  · rw [if_pos hbuf]
    refine .ret fun d hd ↦ ⟨.inl hbuf, ?_⟩
    have hnil := Log.moved_nil ha
    rw [hbuf] at hnil
    rw [hd, Log.drained_eq, List.take_length, List.drop_length, hbuf, hnil]
  · rw [if_neg hbuf]
    refine .bind (.write (Q := fun r log' ↦
      if r.2 then Done o .walWrite ∧ log' = log.drained a a.buf.length
      else Failed o .walWrite ∧ ∃ n ≤ a.buf.length, log' = log.drained a n) ?_ ?_ ?_) ?_
    · rintro d t rfl ho
      exact ⟨⟨t, ho⟩, rfl⟩
    · rintro d t n rfl ho
      exact ⟨⟨t, n, ho⟩, _, Nat.min_le_right _ _, rfl⟩
    · rintro d t n rfl ho
      exact ⟨_, Nat.min_le_right _ _, rfl⟩
    · rintro ⟨n, whole⟩
      cases whole with
      | true => exact .ret fun d hd ↦ ⟨.inr hd.1, hd.2⟩
      | false => exact .fail fun d hd ↦ ⟨hbuf, hd⟩

theorem makeSpace_triple (ha : log.state.active = some a) (bytes : Bytes) :
    Triple o (· = log) (makeSpace a bytes)
      (fun buf log' ↦ ∃ x, log' = log.moved a x buf ∧ x ++ buf = a.buf ∧
        (writeBufferBytes ≤ bytes.length → buf = []))
      (fun _ log' ↦ Failed o .walWrite ∧ ∃ x y, log' = log.moved a x y ∧ x ++ y = a.buf)
      (fun log' ↦ ∃ x y, log' = log.moved a x y) := by
  unfold makeSpace
  split_ifs with hspace
  · refine .bind ((flushBuf_triple ha).exits ?_ ?_) fun _ ↦ .ret ?_
    · rintro e d ⟨-, hf, n, -, rfl⟩
      exact ⟨hf, _, _, rfl, List.take_append_drop n a.buf⟩
    · rintro d ⟨n, -, rfl⟩
      exact ⟨_, _, rfl⟩
    · rintro d ⟨-, rfl⟩
      refine ⟨a.buf, ?_, List.append_nil _, fun _ ↦ rfl⟩
      rw [Log.drained_eq, List.take_length, List.drop_length]
  · refine .ret ?_
    rintro d rfl
    refine ⟨[], (Log.moved_nil ha).symm, rfl, fun hlong ↦ ?_⟩
    -- bytes of the buffer's capacity fit only behind an empty buffer
    rw [← List.length_eq_zero_iff]
    unfold writeBufferBytes at hspace hlong
    omega

theorem writeDirect_triple (x y bytes : Bytes) :
    Triple o (· = log.moved a x y) (writeDirect a bytes)
      (fun _ log' ↦ log' = log.moved a (x ++ bytes) y)
      (fun _ log' ↦ Failed o .walWrite ∧ ∃ t, t <+: bytes ∧ log' = log.moved a (x ++ t) y)
      (fun log' ↦ ∃ x, log' = log.moved a x y) := by
  refine .bind (.write (Q := fun r log' ↦ if r.2 then log' = log.moved a (x ++ bytes) y
    else Failed o .walWrite ∧ ∃ t, t <+: bytes ∧ log' = log.moved a (x ++ t) y) ?_ ?_ ?_) ?_
  · rintro d t rfl -
    rw [List.take_length, Log.appendFile_moved]
    rfl
  · rintro d t n rfl ho
    exact ⟨⟨t, n, ho⟩, _, List.take_prefix _ _, Log.appendFile_moved log a x y _⟩
  · rintro d t n rfl -
    exact ⟨_, Log.appendFile_moved log a x y _⟩
  · rintro ⟨n, whole⟩
    cases whole with
    | true => exact .ret fun d hd ↦ hd
    | false => exact .fail fun d hd ↦ hd

/-- **Writing through the buffer.** Whatever was accepted is in the file or in the buffer, in order;
a write that fails leaves at most a first part of the new bytes behind. -/
theorem writeAll_triple (ha : log.state.active = some a) (bytes : Bytes) :
    Triple o (· = log) (writeAll a bytes)
      (fun buf log' ↦ ∃ x y, log' = log.moved a x y ∧ x ++ buf = a.buf ++ bytes)
      (fun _ log' ↦ Failed o .walWrite ∧
        ∃ x y t, log' = log.moved a x y ∧ x ++ y = a.buf ++ t ∧ t <+: bytes)
      (fun log' ↦ ∃ x y, log' = log.moved a x y) := by
  unfold writeAll
  by_cases hfits : bytes.length < writeBufferBytes - a.buf.length
  · rw [if_pos hfits]
    refine .ret ?_
    rintro d rfl
    exact ⟨[], a.buf, (Log.moved_nil ha).symm, rfl⟩
  · rw [if_neg hfits]
    refine .bind ((makeSpace_triple ha bytes).exits ?_ (fun _ ↦ id)) fun buf ↦ ?_
    · rintro e d ⟨hf, x, y, rfl, hxy⟩
      exact ⟨hf, x, y, [], rfl, by rw [hxy, List.append_nil], List.nil_prefix⟩
    refine .intro fun d ⟨x, hd, hx, hempty⟩ ↦ ?_
    subst hd
    by_cases hlong : writeBufferBytes ≤ bytes.length
    · rw [if_pos hlong]
      obtain rfl := hempty hlong
      rw [List.append_nil] at hx
      subst hx
      refine .bind ((writeDirect_triple _ _ bytes).exits ?_ ?_) fun _ ↦ .ret ?_
      · rintro e d ⟨hf, t, ht, rfl⟩
        exact ⟨hf, _, _, t, rfl, List.append_nil _, ht⟩
      · rintro d ⟨x, rfl⟩
        exact ⟨x, _, rfl⟩
      · rintro d rfl
        exact ⟨_, _, rfl, List.append_nil _⟩
    · rw [if_neg hlong]
      refine .ret ?_
      rintro d rfl
      exact ⟨x, buf, rfl, by rw [← List.append_assoc, hx]⟩

theorem syncInLock_triple (ha : log.state.active = some a) :
    Triple o (· = log) (syncInLock a)
      (fun _ log' ↦ (a.buf = [] ∨ Done o .walWrite) ∧ Done o .walSync ∧ log' = log.settled a)
      (fun _ log' ↦ (a.buf ≠ [] ∧ Failed o .walWrite ∧ ∃ n ≤ a.buf.length, log' = log.drained a n) ∨
        (a.buf = [] ∨ Done o .walWrite) ∧ Failed o .walSync ∧ log' = log.drained a a.buf.length)
      (fun log' ↦ ∃ n ≤ a.buf.length, log' = log.drained a n) := by
  refine .bind ((flushBuf_triple ha).exits (fun _ _ ↦ .inl) (fun _ ↦ id)) fun _ ↦
    .bind (Io.step_triple (Q := fun _ log' ↦
      (a.buf = [] ∨ Done o .walWrite) ∧ Done o .walSync ∧
        log' = (log.drained a a.buf.length).syncFile a.id) ?_ ?_ ?_) fun _ ↦ .modify ?_
  · rintro d t ⟨hbuf, rfl⟩ ho
    exact ⟨hbuf, ⟨t, ho⟩, rfl⟩
  · rintro d t n ⟨hbuf, rfl⟩ ho
    exact .inr ⟨hbuf, ⟨t, n, ho⟩, rfl⟩
  · rintro d t n ⟨hbuf, rfl⟩ ho
    exact ⟨_, le_rfl, rfl⟩
  · rintro d ⟨hbuf, hsync, rfl⟩
    exact ⟨hbuf, hsync, rfl⟩

theorem writeHeader_triple (id : ℕ) :
    Triple o (· = log.newFile id 0 0) (writeHeader id)
      (fun _ log' ↦ log' = log.newFile id segmentHeaderBytes 0)
      (fun _ log' ↦ Failed o .segmentHeader ∧ ∃ n, log' = log.newFile id n 0)
      (fun log' ↦ ∃ n, log' = log.newFile id n 0) := by
  refine .bind (.write (Q := fun r log' ↦
    if r.2 then log' = log.newFile id segmentHeaderBytes 0
    else Failed o .segmentHeader ∧ ∃ n, log' = log.newFile id n 0) ?_ ?_ ?_) ?_
  · rintro d t rfl -
    rw [Log.appendFile_newFile, length_encodeSegmentHeader]
    rfl
  · rintro d t n rfl ho
    exact ⟨⟨t, n, ho⟩, _, Log.appendFile_newFile log id _⟩
  · rintro d t n rfl -
    exact ⟨_, Log.appendFile_newFile log id _⟩
  · rintro ⟨n, whole⟩
    cases whole with
    | true => exact .ret fun d hd ↦ hd
    | false => exact .fail fun d hd ↦ hd

theorem createSegment_triple (id : ℕ) :
    Triple o (· = log) (createSegment id)
      (fun next log' ↦ Done o .segmentCreate ∧ id ∉ log.dir ∧
        next = ⟨id, [], segmentHeaderBytes, segmentHeaderBytes⟩ ∧
        log' = log.newFile id segmentHeaderBytes segmentHeaderBytes)
      (fun _ log' ↦ log' = log ∧ (Failed o .segmentCreate ∨ id ∈ log.dir) ∨
        Done o .segmentCreate ∧ id ∉ log.dir ∧ LateFailed o ∧ ∃ n k, log' = log.newFile id n k)
      (fun log' ↦ log' = log ∧ Interrupted o .segmentCreate ∨
        id ∉ log.dir ∧ ∃ n k, log' = log.newFile id n k) := by
  refine .bind (.op (Q := fun _ log' ↦ (Done o .segmentCreate ∧ id ∉ log.dir) ∧
    log' = log.newFile id 0 0) ?_ ?_ ?_ ?_) fun _ ↦ ?_
  · rintro d t _ d' rfl ho hact
    split_ifs at hact with hmem
    obtain rfl := (Prod.mk.inj (Except.ok.inj hact)).2
    exact ⟨⟨⟨t, ho⟩, hmem⟩, by simp [Log.newFile]⟩
  · rintro d t e rfl - hact
    split_ifs at hact with hmem
    exact .inl ⟨rfl, .inr hmem⟩
  · rintro d t n rfl ho
    exact .inl ⟨rfl, .inl ⟨t, n, ho⟩⟩
  · rintro d t n rfl ho
    exact .inl ⟨rfl, interrupted_of_crashes ho⟩
  -- from here on the file is there, and every fault is a late one
  refine .intro fun d ⟨⟨hcreate, hnew⟩, hd⟩ ↦ ?_
  subst hd
  have hlate : ∀ n k, LateFailed o → Done o .segmentCreate ∧ id ∉ log.dir ∧ LateFailed o ∧
      ∃ n' k', log.newFile id n k = log.newFile id n' k' := fun n k h ↦
    ⟨hcreate, hnew, h, n, k, rfl⟩
  have hstop : ∀ n k, id ∉ log.dir ∧ ∃ n' k', log.newFile id n k = log.newFile id n' k' :=
    fun n k ↦ ⟨hnew, n, k, rfl⟩
  refine .bind ((writeHeader_triple id).exits ?_ ?_) fun _ ↦
    .bind (Io.step_triple (Q := fun _ log' ↦
      log' = log.newFile id segmentHeaderBytes segmentHeaderBytes) ?_ ?_ ?_) fun _ ↦
    .bind (Io.step_triple (Q := fun _ log' ↦
      log' = log.newFile id segmentHeaderBytes segmentHeaderBytes) ?_ ?_ ?_) fun _ ↦
    .bind (Io.step_triple (Q := fun _ log' ↦
      log' = log.newFile id segmentHeaderBytes segmentHeaderBytes) ?_ ?_ ?_) fun _ ↦
    .ret ?_
  · rintro e d ⟨hf, n, rfl⟩
    exact .inr (hlate n 0 (.inl hf))
  · rintro d ⟨n, rfl⟩
    exact .inr (hstop n 0)
  · rintro d t rfl -
    exact Log.syncFile_newFile log id
  · rintro d t n rfl ho
    exact .inr (hlate _ _ (.inr (.inl ⟨t, n, ho⟩)))
  · rintro d t n rfl -
    exact .inr (hstop _ _)
  · rintro d t rfl -
    rfl
  · rintro d t n rfl ho
    exact .inr (hlate _ _ (.inr (.inr (.inl ⟨t, n, ho⟩))))
  · rintro d t n rfl -
    exact .inr (hstop _ _)
  · rintro d t rfl -
    rfl
  · rintro d t n rfl ho
    exact .inr (hlate _ _ (.inr (.inr (.inr ⟨t, n, ho⟩))))
  · rintro d t n rfl -
    exact .inr (hstop _ _)
  · rintro d rfl
    exact ⟨hcreate, hnew, rfl, rfl⟩

@[simp] theorem Log.mem_dir_settled (log : Log) (a : Active) (id : ℕ) :
    id ∈ (log.settled a).dir ↔ id ∈ log.dir := by
  simp only [settled, setActive, syncFile, drained, appendFile, mem_updateFile]

/-- **A roll**: it makes the next segment active, or leaves the log as `RollFails` says. -/
theorem roll_triple (ha : log.state.active = some a) :
    Triple o (· = log) roll
      (fun id log' ↦ id = a.id ∧ a.id + 1 ∉ log.dir ∧ log' = log.rolled a)
      (fun _ log' ↦ RollFails o a log log') (fun log' ↦ RollStops a log log') := by
  refine .look_bind ?_
  rw [ha]
  refine .bind ((syncInLock_triple ha).exits ?_ ?_) fun _ ↦
    .intro fun d' ⟨hbuf, hsync, hd'⟩ ↦ ?_
  · rintro e d' (⟨hne, hf, n, hn, rfl⟩ | ⟨hbuf, hf, rfl⟩)
    · exact .drain hn hne hf
    · exact .sync hbuf hf
  · rintro d' ⟨n, hn, rfl⟩
    exact .drain hn
  subst hd'
  refine .bind ((createSegment_triple (a.id + 1)).exits ?_ ?_)
    fun next ↦ ?_
  · rintro e d' (⟨rfl, hf⟩ | ⟨hcreate, hnew, hf, n, k, rfl⟩)
    · exact .create hbuf hsync (by simpa using hf)
    · exact .late hbuf hsync hcreate (by simpa using hnew) hf
  · rintro d' (⟨rfl, -⟩ | ⟨hnew, n, k, rfl⟩)
    · exact .settled
    · exact .created (by simpa using hnew)
  · refine .intro fun d' ⟨_, hnew, hnext, hd'⟩ ↦ ?_
    subst hnext hd'
    exact .bind (.modify (Q := fun _ log' ↦ log' = log.rolled a) fun d' hd' ↦ by rw [hd']; rfl)
      fun _ ↦ .ret fun d' hd' ↦ ⟨rfl, by simpa using hnew, hd'⟩

theorem rollNow_triple (ha : log.state.active = some a) :
    Triple o (· = log) rollNow
      (fun id log' ↦ id = a.id ∧ a.id + 1 ∉ log.dir ∧ log' = (log.rolled a).setNeedsRoll false)
      (fun _ log' ↦ RollFails o a log log') (fun log' ↦ RollStops a log log') := by
  refine .bind (roll_triple ha) fun id ↦ .bind (.modify (Q := fun _ log' ↦
    id = a.id ∧ a.id + 1 ∉ log.dir ∧ log' = (log.rolled a).setNeedsRoll false) ?_) fun _ ↦
    .ret fun _ hd ↦ hd
  rintro d ⟨hid, hnew, rfl⟩
  exact ⟨hid, hnew, rfl⟩

/-- A closed writer has nothing to roll. -/
theorem roll_closed (ha : log.state.active = none) :
    Triple o (· = log) roll (fun _ _ ↦ False) (fun _ log' ↦ log' = log) (fun _ ↦ False) := by
  refine .look_bind ?_
  rw [ha]
  exact .fail fun _ hd ↦ hd

theorem rollNow_closed (ha : log.state.active = none) :
    Triple o (· = log) rollNow (fun _ _ ↦ False) (fun _ log' ↦ log' = log) (fun _ ↦ False) :=
  .bind (roll_closed ha) fun _ _ hw ↦ hw.elim

/-- An append to `a` failed after writing `x` of the old and new bytes, and `y` is left in the
buffer: together they are the old buffer and a first part of the new bytes. -/
structure Tears (bytes : Bytes) (log : Log) (a : Active) (x y : Bytes) : Prop where
  active : log.state.active = some a
  ready : log.state.needsRoll = false
  bytes_eq : ∃ t, x ++ y = a.buf ++ t ∧ t <+: bytes

/-- The log after such a failure, before the roll it brings about. -/
def Log.tear (log : Log) (bytes : Bytes) (a : Active) (x y : Bytes) : Log :=
  (log.moved a x y).fail a.id bytes

/-- How an append that fails leaves the log. -/
inductive AppendFails (o : Oracle Op) (bytes : Bytes) (log : Log) : Log → Prop
  | refused (h : log.state.needsRoll = true ∨ log.state.active = none) : AppendFails o bytes log log
  | sealed {a : Active} {x y : Bytes} (hfault : Failed o .walWrite) (h : Tears bytes log a x y)
      (hnew : a.id + 1 ∉ log.dir) : AppendFails o bytes log
        (((log.tear bytes a x y).rolled { a with buf := y }).setNeedsRoll false)
  | stuck {a : Active} {x y : Bytes} {log' : Log} (hfault : Failed o .walWrite)
      (h : Tears bytes log a x y)
      (hroll : RollFails o { a with buf := y } (log.tear bytes a x y) log') :
      AppendFails o bytes log log'

/-- Where an append may be stopped. -/
inductive AppendStops (bytes : Bytes) (log : Log) : Log → Prop
  | write {a : Active} (ha : log.state.active = some a) (hready : log.state.needsRoll = false)
      (x y : Bytes) : AppendStops bytes log (log.moved a x y)
  | roll {a : Active} {x y : Bytes} {log' : Log} (h : Tears bytes log a x y)
      (hroll : RollStops { a with buf := y } (log.tear bytes a x y) log') :
      AppendStops bytes log log'

/-- An append acknowledged: the new bytes are behind the old buffer, in the file or in the
buffer. -/
structure Acks (bytes : Bytes) (log : Log) (a : Active) (x buf : Bytes) (log' : Log) : Prop where
  active : log.state.active = some a
  ready : log.state.needsRoll = false
  bytes_eq : x ++ buf = a.buf ++ bytes
  log_eq : log' = (log.appendFile a.id x).ack a buf bytes

theorem Log.mem_dir_tear {bytes x y : Bytes} {k : ℕ} :
    k ∈ (log.tear bytes a x y).dir ↔ k ∈ log.dir := mem_updateFile

/-- **An append**: acknowledged, or failed as `AppendFails` says. -/
theorem appendBytes_triple (bytes : Bytes) :
    Triple o (· = log) (appendBytes bytes) (fun _ log' ↦ ∃ a x buf, Acks bytes log a x buf log')
      (fun _ log' ↦ AppendFails o bytes log log') (fun log' ↦ AppendStops bytes log log') := by
  refine .look_bind ?_
  by_cases hneeds : log.state.needsRoll = true
  · rw [if_pos hneeds]
    refine .fail ?_
    rintro d' rfl
    exact .refused (.inl hneeds)
  rw [if_neg hneeds]
  rw [Bool.not_eq_true] at hneeds
  cases ha : log.state.active with
  | none =>
    refine .fail ?_
    rintro d' rfl
    exact .refused (.inr ha)
  | some a =>
    refine .attempt_bind (E := fun _ log' ↦ Failed o .walWrite ∧
        ∃ x y, Tears bytes log a x y ∧ log' = log.moved a x y)
      ((writeAll_triple ha bytes).exits ?_ ?_) (fun buf ↦ ?_) fun e ↦ ?_
    · rintro e d' ⟨hf, x, y, t, rfl, hxy, ht⟩
      exact ⟨hf, x, y, ⟨ha, hneeds, t, hxy, ht⟩, rfl⟩
    · rintro d' ⟨x, y, rfl⟩
      exact .write ha hneeds x y
    · refine .modify ?_
      rintro d' ⟨x, y, rfl, hx⟩
      exact ⟨a, x, buf, ha, hneeds, hx, rfl⟩
    · refine .intro ?_
      rintro d' ⟨hf, x, y, htear, rfl⟩
      refine .bind (.modify (Q := fun _ log' ↦ log' = log.tear bytes a x y) fun d' hd' ↦ by
        rw [hd']; rfl) fun _ ↦ .bind (Q := fun _ log' ↦ AppendFails o bytes log log')
          (.bind (.attempt ((rollNow_triple rfl).conseq (fun _ ↦ id) ?_ ?_ ?_)) fun _ ↦
            .ret fun _ ↦ id) fun _ ↦ .fail fun _ ↦ id
      · rintro id d' ⟨-, hnew, rfl⟩
        exact .sealed hf htear fun hmem ↦ hnew (Log.mem_dir_tear.2 hmem)
      · exact fun e d' hroll ↦ .stuck hf htear hroll
      · exact fun d' hroll ↦ .roll htear hroll

/-- Sealing: nothing to seal, or a roll. -/
theorem sealSegment_triple :
    Triple o (· = log) sealSegment
      (fun r log' ↦ ∃ a, log.state.active = some a ∧ (r = none ∧ log' = log ∨ r = some a.id ∧
        a.bytes ≠ segmentHeaderBytes ∧ a.id + 1 ∉ log.dir ∧
        log' = (log.rolled a).setNeedsRoll false))
      (fun _ log' ↦ log' = log ∨ ∃ a, log.state.active = some a ∧ RollFails o a log log')
      (fun log' ↦ ∃ a, log.state.active = some a ∧ RollStops a log log') := by
  refine .look_bind ?_
  cases ha : log.state.active with
  | none => exact .fail fun d' hd' ↦ .inl hd'
  | some a =>
    dsimp only
    by_cases hempty : a.bytes = segmentHeaderBytes
    · rw [if_pos hempty]
      exact .ret fun d' hd' ↦ ⟨a, rfl, .inl ⟨rfl, hd'⟩⟩
    · rw [if_neg hempty]
      refine .bind ((rollNow_triple ha).exits (fun _ _ h ↦ .inr ⟨a, rfl, h⟩) fun _ h ↦ ⟨a, rfl, h⟩)
        fun id ↦ .ret ?_
      rintro d' ⟨rfl, hnew, rfl⟩
      exact ⟨a, rfl, .inr ⟨rfl, hempty, hnew, rfl⟩⟩

/-- The log after a close that left `y` in the buffer. -/
def Log.dropped (log : Log) (y : Bytes) : Log := { log.setActive none with lost := y }

/-- How a close leaves the log: what is in the file and what is lost make up the old buffer. -/
structure Closes (log : Log) (a : Active) (x y : Bytes) (log' : Log) : Prop where
  active : log.state.active = some a
  bytes_eq : x ++ y = a.buf
  log_eq : log' = (log.appendFile a.id x).dropped y ∨
    log' = ((log.appendFile a.id x).syncFile a.id).dropped y

theorem dropActive_triple (ha : log.state.active = some a) {E : Error → Log → Prop} :
    Triple o (· = log) dropActive
      (fun _ log' ↦ ∃ x y, x ++ y = a.buf ∧ log' = (log.appendFile a.id x).dropped y) E
      (fun log' ↦ ∃ x y, x ++ y = a.buf ∧ log' = log.moved a x y) := by
  refine .look_bind ?_
  rw [ha]
  have hsplit : ∀ n, log.drained a n = log.moved a (a.buf.take n) (a.buf.drop n) := fun _ ↦ rfl
  refine .bind (Q := fun _ log' ↦ ∃ x y, x ++ y = a.buf ∧ log' = log.moved a x y)
    (.bind (.attempt ((flushBuf_triple ha).conseq (fun _ ↦ id) ?_ ?_ ?_)) fun _ ↦
      .ret fun _ ↦ id) fun _ ↦ .modify ?_
  · rintro _ d' ⟨-, rfl⟩
    exact ⟨_, _, List.take_append_drop _ _, hsplit _⟩
  · rintro e d' ⟨-, -, n, -, rfl⟩
    exact ⟨_, _, List.take_append_drop _ _, hsplit _⟩
  · rintro d' ⟨n, -, rfl⟩
    exact ⟨_, _, List.take_append_drop _ _, hsplit _⟩
  · rintro d' ⟨x, y, hxy, rfl⟩
    exact ⟨x, y, hxy, rfl⟩

/-- **Closing**: what cannot be written is lost, and then the close fails. -/
theorem close_triple :
    Triple o (· = log) close
      (fun _ log' ↦ log.state.active = none ∧ log' = log ∨ ∃ a, Closes log a a.buf [] log')
      (fun _ log' ↦ (Failed o .walWrite ∨ Failed o .walSync) ∧ ∃ a x y, Closes log a x y log')
      (fun log' ↦ ∃ a, log.state.active = some a ∧
        ((∃ x y, x ++ y = a.buf ∧ log' = log.moved a x y) ∨ log' = log.settled a)) := by
  refine .look_bind ?_
  cases ha : log.state.active with
  | none => exact .ret fun d' hd' ↦ .inl ⟨rfl, hd'⟩
  | some a =>
    refine .attempt_bind (Q := fun _ log' ↦ log' = log.settled a)
      (E := fun _ log' ↦ (Failed o .walWrite ∨ Failed o .walSync) ∧
        ∃ x y, x ++ y = a.buf ∧ log' = log.moved a x y)
      ((syncInLock_triple ha).conseq (fun _ ↦ id) (fun _ _ hd ↦ hd.2.2) ?_ ?_) (fun u ↦ ?_)
      fun e ↦ ?_
    · rintro e d' (⟨-, hfailed, n, -, rfl⟩ | ⟨-, hfailed, rfl⟩)
      · exact ⟨.inl hfailed, _, _, List.take_append_drop n a.buf, rfl⟩
      · exact ⟨.inr hfailed, _, _, List.take_append_drop _ a.buf, rfl⟩
    · rintro d' ⟨n, -, rfl⟩
      exact ⟨a, rfl, .inl ⟨_, _, List.take_append_drop n a.buf, rfl⟩⟩
    · -- the buffer is empty, so dropping it writes nothing
      refine .bind ((dropActive_triple rfl).conseq (fun _ ↦ id) (fun _ _ ↦ id) (fun _ _ ↦ id) ?_)
        fun _ ↦ .ret ?_
      · rintro d' ⟨x, y, hxy, rfl⟩
        obtain ⟨rfl, rfl⟩ := List.append_eq_nil_iff.1 hxy
        exact ⟨a, rfl, .inr (Log.moved_nil rfl)⟩
      · rintro d' ⟨x, y, hxy, rfl⟩
        obtain ⟨rfl, rfl⟩ := List.append_eq_nil_iff.1 hxy
        refine .inr ⟨a, ha, List.append_nil _, .inr ?_⟩
        rw [Log.appendFile_nil, Log.settled, Log.drained_eq, List.take_length]
        rfl
    · refine .intro ?_
      rintro d' ⟨hfailed, x, y, hxy, rfl⟩
      refine .bind ((dropActive_triple rfl).exits (fun _ _ ↦ id) ?_) fun _ ↦ .fail ?_
      · rintro d' ⟨x', y', hxy', rfl⟩
        refine ⟨a, rfl, .inl ⟨x ++ x', y', ?_, Log.moved_moved log a x y x' y'⟩⟩
        rw [List.append_assoc, hxy', hxy]
      · rintro d' ⟨x', y', hxy', rfl⟩
        refine ⟨hfailed, a, x ++ x', y', ha, ?_, .inl ?_⟩
        · rw [List.append_assoc, hxy', hxy]
        · change ((log.moved a x y).appendFile a.id x').dropped y' = _
          rw [Log.appendFile_moved]
          rfl

/-- The steps of opening a writer up to the creation of its first segment. -/
def OpenInterrupted (o : Oracle Op) : Prop :=
  Interrupted o .walMkdir ∨ Interrupted o .dataDirSync ∨ Interrupted o .segmentCreate

/-- How opening a writer on segment `first` may end early: before the file is there or behind
that. -/
def OpenExit (o : Oracle Op) (first : ℕ) (log log' : Log) : Prop :=
  log' = log ∧ (OpenInterrupted o ∨ first ∈ log.dir) ∨ ∃ n k, log' = log.newFile first n k

/-- Opening a writer that returns has created the first segment. -/
theorem openWriter_triple (first : ℕ) :
    Triple o (· = log) (openWriter first)
      (fun _ log' ↦ log' = (log.newFile first segmentHeaderBytes segmentHeaderBytes).setActive
        (some ⟨first, [], segmentHeaderBytes, segmentHeaderBytes⟩))
      (fun _ ↦ OpenExit o first log) (OpenExit o first log) := by
  refine .bind (Io.step_triple (Q := fun _ log' ↦ log' = log) (fun _ _ hd _ ↦ hd)
      (fun _ _ _ hd ho ↦ .inl ⟨hd, .inl (.inl (interrupted_of_fails ho))⟩)
      fun _ _ _ hd ho ↦ .inl ⟨hd, .inl (.inl (interrupted_of_crashes ho))⟩) fun _ ↦
    .bind (Io.step_triple (Q := fun _ log' ↦ log' = log) (fun _ _ hd _ ↦ hd)
      (fun _ _ _ hd ho ↦ .inl ⟨hd, .inl (.inr (.inl (interrupted_of_fails ho)))⟩)
      fun _ _ _ hd ho ↦ .inl ⟨hd, .inl (.inr (.inl (interrupted_of_crashes ho)))⟩) fun _ ↦
    .bind ((createSegment_triple first).exits ?_ ?_) fun next ↦ .modify ?_
  · rintro _ d (⟨rfl, ⟨t, n, ho⟩ | hmem⟩ | ⟨-, -, -, n, k, rfl⟩)
    · exact .inl ⟨rfl, .inl (.inr (.inr (interrupted_of_fails ho)))⟩
    · exact .inl ⟨rfl, .inr hmem⟩
    · exact .inr ⟨n, k, rfl⟩
  · rintro d (⟨rfl, hstop⟩ | ⟨-, n, k, rfl⟩)
    · exact .inl ⟨rfl, .inl (.inr (.inr hstop))⟩
    · exact .inr ⟨n, k, rfl⟩
  · rintro d ⟨-, -, rfl, rfl⟩
    rfl

end Triples

end Orc
