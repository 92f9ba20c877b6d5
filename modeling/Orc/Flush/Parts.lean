import Orc.Flush.Planner

/-!
# What the parts of a flush do

One statement for each part of `run` that touches the directory: reading a segment or moving it
aside, the spill, staging, the commit of the manifest, the renames of the staged files.

## One walk for all

The modules about flushes follow different things through `run`: records, files, effects on the
directory, rejects. Each of them would have to walk the same programs, so the walk is made here, for
an arbitrary predicate. `Gathered.Phase` lists what a result about the first phase has to say, one
premise for each thing that can happen at a segment: it is read, it is unreadable and moved aside or
stops the phase, it is taken, the batch is spilled. `Gathered.Phase.triple` is the only induction
over the segments.

`IgnoresStaging` and the other predicates of this kind say which files an invariant does not look
at; the parts of a flush that write nothing else then keep it without further argument.
-/

namespace Orc

open Bytes Fault Order

/-- The directory after the rename of a manifest. -/
def Disk.recorded (m : Manifest) (flushed : Option (List ℕ × List Path)) (d : Disk) : Disk :=
  { d with
    manifest := some (.whole m)
    manifestTmp := none
    commits := d.commits ++ (flushed.map fun (ids, paths) ↦ d.commitOf ids paths).toList }

/-- An operation of the commit up to the rename failed. -/
def CommitFails (o : Oracle Op) : Prop :=
  Failed o .manifestCreate ∨ Failed o .manifestWrite ∨ Failed o .manifestSync ∨
    Failed o .manifestRename

/-- A predicate that does not look at the manifest's staging file. -/
def IgnoresStaging (P : Disk → Prop) : Prop := ∀ d f, P d → P { d with manifestTmp := f }

variable {crc : Bytes → UInt32} {o : Oracle Op} {P Q J : Disk → Prop} {E : Error → Disk → Prop}
  {C : Disk → Prop}

/-! ## Reading the segments -/

theorem clearRuns_triple (hP : IgnoresRuns P) : Triple o P clearRuns (fun _ ↦ P) E P :=
  Io.ignore_step (fun _ ↦ id) (fun d hd ↦ hP d _ hd) fun _ ↦ id

theorem readSegment_triple (hx : Exits Op.onFiles o J ioError E C) (hJ : ∀ d, P d → J d) {id : ℕ}
    (hmissing : ∀ d, P d → d.wal[id]? = none → E (.io .notFound) d) :
    Triple o P (readSegment id)
      (fun buf d ↦ P d ∧ ∃ f, d.wal[id]? = some f ∧ buf = f.bytes) E C := by
  refine Io.read_exits hx hJ (fun d buf hd hread ↦ ?_) fun d e hd hread ↦ ?_
  · cases hf : d.wal[id]? with
    | none =>
      rw [hf] at hread
      cases hread
    | some f =>
      rw [hf] at hread
      exact ⟨hd, f, rfl, (Except.ok.inj hread).symm⟩
  · cases hf : d.wal[id]? with
    | none =>
      rw [hf] at hread
      exact Except.error.inj hread ▸ hmissing d hd hf
    | some f =>
      rw [hf] at hread
      cases hread

theorem readSegment_keeps (id : ℕ) :
    Triple o P (readSegment id)
      (fun buf d ↦ P d ∧ ∃ f, d.wal[id]? = some f ∧ buf = f.bytes) (fun _ ↦ P) P :=
  readSegment_triple (.of_keeps _ o P ioError) (fun _ hd ↦ hd) fun _ hd _ ↦ hd

theorem quarantineSegment_triple {d : Disk} {id : ℕ} {f : SegFile} (hf : d.wal[id]? = some f) :
    Triple o (· = d) (quarantineSegment id) (fun _ d' ↦ d' = d.quarantined id f.bytes)
      (fun _ d' ↦ FailsOn Op.onFiles o ∧
        (d' = d ∨ d' = d.quarantined id f.bytes ∧ Interrupted o .walDirSync))
      (fun d' ↦ d' = d ∨ d' = d.quarantined id f.bytes ∧ Interrupted o .walDirSync) := by
  refine .bind (Q := fun _ d' ↦ d' = d.quarantined id f.bytes) (.op ?_ ?_
    (fun _ t n hd ho ↦ ⟨⟨t, _, n, rfl, ho⟩, .inl hd⟩) fun _ _ _ hd _ ↦ .inl hd) fun _ ↦
      Io.step_triple (fun _ _ hd _ ↦ hd)
        (fun d' t n hd ho ↦ ⟨⟨t, _, n, rfl, ho⟩, .inr ⟨hd, interrupted_of_fails ho⟩⟩)
        fun d' t n hd ho ↦ .inr ⟨hd, interrupted_of_crashes ho⟩
  · rintro d' t a d'' rfl - hact
    rw [hf] at hact
    exact (Prod.mk.inj (Except.ok.inj hact)).2.symm
  · rintro d' t e rfl - hact
    rw [hf] at hact
    cases hact

/-- What decoding gives for a segment whose header cannot be read: nothing is taken from it, and all
of its bytes are counted as skipped. -/
def DecodeState.unread (rejects : RejectSink) (batch : Batch) (buf : Bytes) (quarantined : Bool) :
    DecodeState :=
  ⟨rejects, batch, { unreadable := true, quarantined, bytesSkipped := buf.length }⟩

private theorem decodeSegment_unreadable {id : ℕ} {d : Disk} {f : SegFile} {m : Manifest}
    {rejects : RejectSink} {batch : Batch} {e : DecodeError} (hf : d.wal[id]? = some f)
    (hheader : parseSegmentHeader f.bytes = .error e) :
    Triple o (· = d) (decodeSegment crc id f.bytes m rejects batch)
      (fun s d' ↦ s = .unread rejects batch f.bytes true ∧ d' = d.quarantined id f.bytes ∨
        s = .unread rejects batch f.bytes false ∧ FailsOn Op.onFiles o ∧
          (d' = d ∨ d' = d.quarantined id f.bytes))
      (fun _ _ ↦ False) (fun d' ↦ d' = d ∨ d' = d.quarantined id f.bytes) := by
  have hnew : SegmentReader.new f.bytes f.bytes.length = .error e := by
    rw [SegmentReader.new, hheader]
    rfl
  rw [decodeSegment, hnew]
  refine .bind (Q := fun r d' ↦ r.isOk = true ∧ d' = d.quarantined id f.bytes ∨
      r.isOk = false ∧ FailsOn Op.onFiles o ∧ (d' = d ∨ d' = d.quarantined id f.bytes))
    (.attempt ((quarantineSegment_triple hf).conseq (fun _ hd ↦ hd) ?_ ?_ ?_)) fun r ↦ .ret ?_
  · exact fun _ d' hd ↦ .inl ⟨rfl, hd⟩
  · exact fun _ d' hd ↦ .inr ⟨rfl, hd.1, hd.2.imp_right And.left⟩
  · exact fun d' hd ↦ hd.imp_right And.left
  · rintro d' (⟨hr, hd⟩ | ⟨hr, hd⟩)
    · exact .inl ⟨by rw [hr]; rfl, hd⟩
    · exact .inr ⟨by rw [hr]; rfl, hd⟩

theorem Spill.spill_keeps (hP : IgnoresRuns P) (s : Spill) (b : Batch) :
    Triple o P (s.spill b) (fun r d ↦ P d ∧ r.2.Ok) (fun _ ↦ P) P := by
  have hrun : ∀ run hs, Keeps o P (Spill.writeRun run hs) := by
    intro run hs
    have hpush : Keeps o P (hs.forM fun h ↦ RunWriter.push run h.arrival h.frame) :=
      .forM (fun h : Head ↦ RunWriter.push_keeps hP run h.arrival h.frame) hs
    exact (Io.step_keeps fun d hd ↦ hP d _ hd).bind fun _ ↦ hpush.bind fun _ ↦ Io.touch_keeps _
  have hruns : ∀ (srcs : List (GroupKey × List Head)) (s : Spill),
    Keeps o P (s.writeRuns srcs) := by
    intro srcs
    induction srcs with
    | nil => exact fun s ↦ .ret s
    | cons src srcs ih =>
      obtain ⟨g, hs⟩ := src
      intro s
      rw [Spill.writeRuns]
      exact (hrun _ _).bind fun _ ↦ ih _
  exact .bind (Io.touch_keeps _) fun _ ↦ .bind (hruns _ s) fun _ ↦ .ret fun d hd ↦
    ⟨hd, List.nodup_nil, by simp, by simp, by simp⟩

theorem Gathered.relieve_keeps (hP : IgnoresRuns P) (s : Gathered) (budget : ℕ) (rest : List ℕ) :
    Triple o P (s.relieve budget rest)
      (fun s' d ↦ P d ∧ s'.consumed = s.consumed ∧ s'.rejects = s.rejects ∧
        (s.batch.Ok → s'.batch.Ok)) (fun _ ↦ P) P := by
  unfold Gathered.relieve
  split_ifs
  · exact .bind (Spill.spill_keeps hP _ _) fun r ↦ .ret fun d hd ↦ ⟨hd.1, rfl, rfl, fun _ ↦ hd.2⟩
  · exact .ret fun d hd ↦ ⟨hd, rfl, rfl, id⟩

/-- What has to be shown of the first phase to reason about all of it. `I ids g` holds while the
segments `ids` are left to decode, `J ids g` between a segment that was consumed and the spill after
it, and `R g` when the phase is over. -/
structure Gathered.Phase (o : Oracle Op) (crc : Bytes → UInt32) (m : Manifest) (budget : ℕ)
    (I J : List ℕ → Gathered → Disk → Prop) (R : Gathered → Disk → Prop) (E : Error → Disk → Prop)
    (C : Disk → Prop) : Prop where
  read : ∀ id rest g, Triple o (I (id :: rest) g) (readSegment id)
    (fun buf d ↦ I (id :: rest) g d ∧ ∃ f, d.wal[id]? = some f ∧ buf = f.bytes) E C
  crash : ∀ {ids g d}, I ids g d → C d
  aside : ∀ {id rest g d f e}, I (id :: rest) g d → d.wal[id]? = some f →
    parseSegmentHeader f.bytes = .error e →
    C (d.quarantined id f.bytes) ∧
      I rest (g.tally (.unread g.rejects g.batch f.bytes true)) (d.quarantined id f.bytes)
  /-- A segment is neither read nor moved aside for certain only if something failed. -/
  stop : ∀ {id rest g d f e}, I (id :: rest) g d → d.wal[id]? = some f →
    parseSegmentHeader f.bytes = .error e → FailsOn Op.onFiles o →
    R (g.tally (.unread g.rejects g.batch f.bytes false)) d ∧
      R (g.tally (.unread g.rejects g.batch f.bytes false)) (d.quarantined id f.bytes)
  take : ∀ {id rest g d f hid}, I (id :: rest) g d → d.wal[id]? = some f →
    parseSegmentHeader f.bytes = .ok hid →
    Triple o (· = d) (decodeSegment crc id f.bytes m g.rejects g.batch)
      (fun r d' ↦ r.out.unreadable = false ∧ J rest ((g.tally r).consume id r.out) d') E C
  spill : ∀ rest g, Triple o (J rest g) (g.relieve budget rest) (I rest) E C
  done : ∀ {g d}, I [] g d → R g d

/-- **The rule for the first phase.** -/
theorem Gathered.Phase.triple {I J : List ℕ → Gathered → Disk → Prop} {R : Gathered → Disk → Prop}
    {m : Manifest} {budget : ℕ} (h : Gathered.Phase o crc m budget I J R E C) (ids : List ℕ)
    (g : Gathered) : Triple o (I ids g) (g.decodeSegments crc m budget ids) R E C := by
  induction ids generalizing g with
  | nil => exact .ret fun _ ↦ h.done
  | cons id rest ih =>
    rw [Gathered.decodeSegments]
    refine .bind (h.read id rest g) fun buf ↦ .intro ?_
    rintro d ⟨hd, f, hf, rfl⟩
    cases hheader : parseSegmentHeader f.bytes with
    | error e =>
      refine .bind ((decodeSegment_unreadable hf hheader).exits (fun _ _ ↦ False.elim) ?_)
        fun r ↦ .intro ?_
      · rintro d' (rfl | rfl)
        · exact h.crash hd
        · exact (h.aside hd hf hheader).1
      rintro d' (⟨rfl, rfl⟩ | ⟨rfl, hfails, hd'⟩)
      · exact (ih _).pre fun _ heq ↦ heq ▸ (h.aside hd hf hheader).2
      · have hstop := h.stop hd hf hheader hfails
        refine .ret fun d'' heq ↦ heq ▸ ?_
        rcases hd' with rfl | rfl
        · exact hstop.1
        · exact hstop.2
    | ok hid =>
      refine .bind (h.take hd hf hheader) fun r ↦ .intro ?_
      rintro d' ⟨hreadable, hd'⟩
      rw [hreadable, if_neg Bool.false_ne_true]
      exact .bind ((h.spill rest _).pre fun _ heq ↦ heq ▸ hd') fun g' ↦ ih g'

/-! ## Staging -/

theorem fsyncStaging_exits (hx : Exits Op.onFiles o J ioError E C) (hJ : ∀ d, P d → J d)
    (staged : List Path) : Triple o P (fsyncStaging staged) (fun _ ↦ P) E C :=
  .bind (Triple.forM (I := fun _ ↦ P) (fun _ _ ↦ Io.touch_exits hx hJ) _) fun _ ↦
    Io.touch_exits hx hJ

/-- What a flush that has been staged says of the segments it read and of the files it lists: they
are complete, and nothing else has been written. -/
structure Plan.Stages (N B : Path → Prop) (g : Gathered) (last : ℕ) (plan : Plan) (d : Disk) :
    Prop where
  ids : plan.ids = g.consumed
  last : plan.last = last
  consumed : plan.outcome.segmentsConsumed = g.consumed
  staged : ∀ p ∈ plan.staged, d.Complete p ∧ N p
  tracked : ∀ p ∈ d.tmp, B p ∨ p ∈ plan.staged

section Staging

variable {flush : FlushConfig} {first last : ℕ} {N B : Path → Prop}

theorem mergeGroup_keeps (hruns : IgnoresRuns P)
    (hignored : ∀ key keys, (target flush first last key keys).Ignored P)
    (hnamed : ∀ key keys ts, N ((target flush first last key keys).path ts))
    (sources : List (GroupKey × List Head)) (spill : Spill)
    (schemas : List (GroupKey × List KeyDef)) (s : Merged) (key : GroupKey) :
    Triple o (fun d ↦ P d ∧ Partition.Off N B s.staged none d)
      (mergeGroup flush first last sources spill schemas s key)
      (fun s' d ↦ P d ∧ Partition.Off N B s'.staged none d) (fun _ ↦ P) P := by
  have hignored := hignored key ((schemas.lookup key).getD [])
  have hnamed := hnamed key ((schemas.lookup key).getD [])
  rw [mergeGroup, mergePartition]
  generalize target flush first last key ((schemas.lookup key).getD []) = t at hignored hnamed ⊢
  refine .bind ((mergeBounded_keeps (J := P) (I := fun p d ↦ P d ∧ p.Safe t N B d) ?_
    (fun _ _ ↦ And.left) (Partition.emit_keeps hignored hnamed) _ _ _ _ _).pre ?_) fun r ↦ ?_
  · exact fun p d runs hd ↦ ⟨hruns d runs hd.1,
      ⟨hd.2.off.complete, hd.2.off.named, hd.2.off.tracked⟩, hd.2.current⟩
  · exact fun d hd ↦ ⟨hd.1, hd.2, nofun⟩
  · exact .bind (Partition.close_keeps hignored hnamed r.1) fun p ↦ .ret fun d hd ↦ ⟨hd.1, hd.2.2⟩

/-- **Staging** keeps what does not look at the runs and the files it names, and lists these. -/
theorem stage_keeps {config : Config} (hruns : IgnoresRuns P)
    (hignored : ∀ key keys, (target config.flush first last key keys).Ignored P)
    (hnamed : ∀ key keys ts, N ((target config.flush first last key keys).path ts)) (g : Gathered) :
    Triple o (fun d ↦ P d ∧ ∀ p ∈ d.tmp, B p) (stage config g first last)
      (fun plan d ↦ P d ∧ plan.Stages N B g last d) (fun _ ↦ P) P := by
  have hmerge : Triple o (fun d ↦ P d ∧ Partition.Off N B [] none d)
      ((groupKeys g.batch.sort.sources g.spill).foldlM (mergeGroup config.flush first last
        g.batch.sort.sources g.spill g.schemas) { next := g.spill.next })
      (fun s d ↦ P d ∧ Partition.Off N B s.staged none d) (fun _ ↦ P) P :=
    Triple.foldlM (I := fun _ s d ↦ P d ∧ Partition.Off N B s.staged none d)
      (fun key _ s ↦ mergeGroup_keeps hruns hignored hnamed _ _ _ s key) _ { next := g.spill.next }
  refine .bind (Io.touch_exits (.of_keeps _ o P ioError) fun _ ↦ And.left) fun _ ↦
    .bind (hmerge.pre ?_) fun merged ↦
      .bind (fsyncStaging_exits (.of_keeps _ o P ioError) (fun _ ↦ And.left) _) fun _ ↦ .ret ?_
  · exact fun d hd ↦ ⟨hd.1, by simp, by simp, fun q hq ↦ .inl (hd.2 q hq)⟩
  · rintro d ⟨hd, hoff⟩
    refine ⟨hd, rfl, rfl, rfl, ?_, fun p hp ↦ (hoff.tracked p hp).imp_right fun h ↦ ?_⟩
    · rw [List.forall_mem_map]
      exact fun x hx ↦ ⟨(hoff.complete x hx).resolve_right nofun, hoff.named x hx⟩
    · obtain ⟨x, hx, rfl⟩ := h.resolve_right nofun
      exact List.mem_map_of_mem hx

end Staging

/-! ## Publishing -/

/-- The rename of a manifest is the commit: before it nothing has happened, after it everything. -/
theorem Manifest.commit_triple (hP : IgnoresStaging P) (m : Manifest)
    (flushed : Option (List ℕ × List Path)) :
    Triple o P (m.commit flushed) (fun _ d ↦ ∃ d₁, P d₁ ∧ d = d₁.recorded m flushed)
      (fun e d ↦ e = ioError ∧ ((P d ∧ CommitFails o) ∨
        (∃ d₁, P d₁ ∧ d = d₁.recorded m flushed) ∧ Failed o .manifestDirSync))
      (fun d ↦ P d ∨ ∃ d₁, P d₁ ∧ d = d₁.recorded m flushed) := by
  refine .bind (Q := fun _ ↦ P) (Io.step_triple (fun d _ hd _ ↦ hP d _ hd)
      (fun d t n hd ho ↦ ⟨rfl, .inl ⟨hd, .inl ⟨t, n, ho⟩⟩⟩) fun d _ _ hd _ ↦ .inl hd) fun _ ↦
    .bind (Q := fun _ d ↦ P d ∧ d.manifestTmp = some (.whole m))
      (Io.step_triple (fun d _ hd _ ↦ ⟨hP d _ hd, rfl⟩)
        (fun d t n hd ho ↦ ⟨rfl, .inl ⟨hd, .inr (.inl ⟨t, n, ho⟩)⟩⟩) fun d _ _ hd _ ↦
          .inl hd) fun _ ↦
    .bind (Q := fun _ d ↦ P d ∧ d.manifestTmp = some (.whole m))
      (Io.step_triple (fun d _ hd _ ↦ hd)
        (fun d t n hd ho ↦ ⟨rfl, .inl ⟨hd.1, .inr (.inr (.inl ⟨t, n, ho⟩))⟩⟩)
        fun d _ _ hd _ ↦ .inl hd.1) fun _ ↦
    .bind (Q := fun _ d ↦ ∃ d₁, P d₁ ∧ d = d₁.recorded m flushed) (.op ?_ ?_
      (fun d t n hd ho ↦ ⟨rfl, .inl ⟨hd.1, .inr (.inr (.inr ⟨t, n, ho⟩))⟩⟩)
      fun d _ _ hd _ ↦ .inl hd.1) fun _ ↦
    Io.step_triple (fun _ _ hd _ ↦ hd) (fun d t n hd ho ↦ ⟨rfl, .inr ⟨hd, t, n, ho⟩⟩)
      fun d _ _ hd _ ↦ .inr hd
  · rintro d t a d' ⟨hd, htmp⟩ - hact
    rw [Disk.renameManifest, htmp] at hact
    exact ⟨d, hd, (Prod.mk.inj (Except.ok.inj hact)).2.symm⟩
  · rintro d t e ⟨hd, htmp⟩ - hact
    rw [Disk.renameManifest, htmp] at hact
    cases hact

/-- Publishing a staged file moves it. -/
theorem promote_triple (hx : Exits Op.onFiles o J ioError E C) (hP : ∀ d, P d → J d)
    (hQ : ∀ d, Q d → J d) {p : Path} (hmissing : ∀ d, P d → d.tmp[p]? = none → E (.io .notFound) d)
    (h : ∀ d f, P d → d.tmp[p]? = some f →
      Q { d with tmp := d.tmp.erase p, series := d.series.insert p f }) :
    Triple o P (promote p) (fun _ ↦ Q) E C := by
  refine .bind (Io.touch_exits hx hP) fun _ ↦ .bind (Q := fun _ ↦ Q) (.op ?_ ?_
    (fun d t n hd ho ↦ hx.fails ⟨t, _, n, rfl, ho⟩ d (hP d hd)) fun d _ _ hd _ ↦
      hx.crash d (hP d hd))
    fun _ ↦ .bind (Io.touch_exits hx hQ) fun _ ↦ .bind (Io.touch_exits hx hQ) fun _ ↦
      Io.touch_exits hx hQ
  · intro d t a d' hd _ hact
    cases hf : d.tmp[p]? with
    | none =>
      rw [hf] at hact
      cases hact
    | some f =>
      rw [hf] at hact
      rw [← (Prod.mk.inj (Except.ok.inj hact)).2]
      exact h d f hd hf
  · intro d t e hd _ hact
    cases hf : d.tmp[p]? with
    | none =>
      rw [hf] at hact
      exact Except.error.inj hact ▸ hmissing d hd hf
    | some f =>
      rw [hf] at hact
      cases hact

end Orc
