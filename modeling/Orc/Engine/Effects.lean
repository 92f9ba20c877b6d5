import Orc.Engine.Node
import Orc.Flush.Parts

/-!
# What the engine does to the data directory

`Effect` lists the changes that opening and flushing make to the files, one file-system operation
each, with what the engine knows when it makes them. A program of the directory is stopped or fails
after some of these, so what it leaves is related by `Effects` to what it found, however it ends;
and an invariant of the directory is one that every effect keeps.

The results about runs differ in what they follow (frames, ids, versions, files), but each needs to
know the same thing of the programs, namely which changes they can make and in which circumstances.
So the programs are walked through once, in this module. A change to one of them is answered here,
by a new effect or a new guard on an old one.

## The watermark in memory

The first component of the state is the watermark in memory. It is the one of the manifest on disk
except after a commit that failed: then it has been advanced alone (`Effect.advance`). It is kept
with the directory because the effects are guarded by it: a sweep promotes and a flush deletes by
the watermark in memory, not by the one on disk.

Recovery also removes a tail that has no header or moves one aside whose header is wrong. This is
not among the effects: the id of such a tail is used again if the start does not get as far as
creating the next segment, and some invariants do not survive that (`recover_effects`).
-/

namespace Orc

open Bytes Fault Order

/-- The watermark on disk. -/
def Disk.watermark (d : Disk) : ℕ :=
  match d.manifest with
  | some (.whole m) => m.lastFlushedSegment
  | _ => 0

/-- The files that matter are the same. -/
structure Disk.SameData (d d' : Disk) : Prop where
  wal : d'.wal = d.wal
  corrupt : d'.corrupt = d.corrupt
  tmp : d'.tmp = d.tmp
  series : d'.series = d.series
  manifest : d'.manifest = d.manifest
  commits : d'.commits = d.commits

/-- A file of a flush up to segment `last`. -/
def IsOutput (last : ℕ) (p : Path) : Prop :=
  ∃ series hour first epoch, first ≤ last ∧ p = [series, hour, outputFileName first last epoch]

theorem IsOutput.last_eq {last : ℕ} {p : Path} (h : IsOutput last p) {r : ℕ × ℕ × UInt32}
    (hr : outputRange p = some r) : r.2.1 = last := by
  obtain ⟨series, hour, first, epoch, -, rfl⟩ := h
  simp only [outputRange, List.getLast?_cons_cons, List.getLast?_singleton, Option.bind_some] at hr
  rw [eq_of_parseOutputFileName hr]

/-- A staged file that a watermark covers, if its name is one the engine writes. -/
def Covered (w : ℕ) (p : Path) : Prop := ∀ r, outputRange p = some r → r.2.1 ≤ w

/-- The segments above the watermark that a flush has read, up to the last that it consumes. -/
structure Consumes (active w : ℕ) (ids : List ℕ) (d : Disk) : Prop where
  sorted : ids.Pairwise (· < ·)
  above : ∀ id ∈ ids, w < id
  below : ∀ id ∈ ids, id < active
  there : ∀ id ∈ ids, id ∈ d.wal
  passed : ∀ id ∈ d.wal, w < id → id ∈ ids ∨ ∀ j ∈ ids, j < id

/-- A flush ready to be committed. `clean`: what was in `tmp/` before it is covered. -/
structure Plan.Ready (clean : Prop) (active w : ℕ) (plan : Plan) (d : Disk) : Prop where
  consumes : Consumes active w plan.ids d
  last : plan.ids.getLast? = some plan.last
  staged : ∀ p ∈ plan.staged, d.Complete p ∧ IsOutput plan.last p
  tracked : clean → ∀ p ∈ d.tmp, Covered w p ∨ p ∈ plan.staged

/-- One change to the watermark in memory and the directory. -/
inductive Effect (crc : Bytes → UInt32) (o : Oracle Op) (clean : Prop) (active : ℕ) :
    ℕ × Disk → ℕ × Disk → Prop
  | scratch {w : ℕ} {d d' : Disk} (h : d.SameData d') : Effect crc o clean active (w, d) (w, d')
  | stage {w last : ℕ} {d : Disk} {p : Path} (f : Parquet) (hp : IsOutput last p)
      (hlast : w < last) : Effect crc o clean active (w, d) (w, { d with tmp := d.tmp.insert p f })
  | setAside {w id : ℕ} {d : Disk} {f : SegFile} {e : DecodeError} (hf : d.wal[id]? = some f)
      (hheader : parseSegmentHeader f.bytes = .error e) (hid : w < id) (hnext : id < active)
      (hthere : active ∈ d.wal) :
      Effect crc o clean active (w, d) (w, d.quarantined id f.bytes)
  | commit {w : ℕ} {d : Disk} {plan : Plan} {m : Manifest} (hready : plan.Ready clean active w d)
      (hm : m.lastFlushedSegment = max w plan.last) :
      Effect crc o clean active (w, d)
        (max w plan.last, d.recorded m (some (plan.ids, plan.staged)))
  | advance {w : ℕ} {d : Disk} {plan : Plan} (hready : plan.Ready clean active w d)
      (hfails : CommitFails o) : Effect crc o clean active (w, d) (max w plan.last, d)
  | recommit {w : ℕ} {d : Disk} {m : Manifest} (hm : m.lastFlushedSegment = d.watermark) :
      Effect crc o clean active (w, d) (w, d.recorded m none)
  | promote {w : ℕ} {d : Disk} {p : Path} {f : Parquet} (hf : d.tmp[p]? = some f)
      (hp : Covered w p) : Effect crc o clean active (w, d)
        (w, { d with tmp := d.tmp.erase p, series := d.series.insert p f })
  | discard {w : ℕ} {d : Disk} {p : Path} (hp : ∀ r, outputRange p = some r → w < r.2.1) :
      Effect crc o clean active (w, d) (w, { d with tmp := d.tmp.erase p })
  | discardFlat {w : ℕ} {d : Disk} {p : Path} (hp : p.length = 1) :
      Effect crc o clean active (w, d) (w, { d with tmp := d.tmp.erase p })
  | discardOutput {w : ℕ} {d : Disk} {p : Path} {r : ℕ × ℕ × UInt32} (hr : outputRange p = some r)
      (hp : w < r.2.1) : Effect crc o clean active (w, d) (w, { d with series := d.series.erase p })
  | delete {w id : ℕ} {d : Disk} (hid : id ≤ d.watermark) :
      Effect crc o clean active (w, d) (w, { d with wal := d.wal.erase id })
  | truncate {w id hid : ℕ} {d : Disk} {f : SegFile} {fs : List Bytes} {rest : Bytes}
      (hf : d.wal[id]? = some f) (hheader : parseSegmentHeader f.bytes = .ok hid)
      (hcut : Cut crc f.bytes.length (f.bytes.drop segmentHeaderBytes) fs rest) :
      Effect crc o clean active (w, d)
        (w, d.onSegment id (SegFile.truncate (segmentHeaderBytes + fs.flatten.length)))
  | sync {w : ℕ} {d : Disk} (id : ℕ) :
      Effect crc o clean active (w, d) (w, d.onSegment id SegFile.sync)

/-- Some changes, one after the other. -/
def Effects (crc : Bytes → UInt32) (o : Oracle Op) (clean : Prop) (active : ℕ) :
    ℕ × Disk → ℕ × Disk → Prop :=
  Relation.ReflTransGen (Effect crc o clean active)

/-- An invariant that every effect keeps is kept by all of them. -/
theorem Effects.keeps {crc : Bytes → UInt32} {o : Oracle Op} {clean : Prop} {active : ℕ}
    {x y : ℕ × Disk}
    {I : ℕ × Disk → Prop} (h : Effects crc o clean active x y)
    (hI : ∀ x y, Effect crc o clean active x y → I x → I y) (hx : I x) : I y := by
  induction h with
  | refl => exact hx
  | tail _ heffect ih => exact hI _ _ heffect ih

section Programs

variable {crc : Bytes → UInt32} {o : Oracle Op} {clean : Prop} {active : ℕ} {x : ℕ × Disk} {w : ℕ}

/-! ## Runs and rejects -/

/-- The directory has been changed by effects, and the watermark in memory is `w`. -/
def Reached (crc : Bytes → UInt32) (o : Oracle Op) (clean : Prop) (active : ℕ) (x : ℕ × Disk)
    (w : ℕ) (d : Disk) :
    Prop := Effects crc o clean active x (w, d)

theorem Reached.step {d d' : Disk} (h : Reached crc o clean active x w d)
    (heffect : Effect crc o clean active (w, d) (w, d')) : Reached crc o clean active x w d' :=
  Relation.ReflTransGen.tail h heffect

theorem Reached.scratch {d d' : Disk} (h : Reached crc o clean active x w d)
    (hsame : d.SameData d') : Reached crc o clean active x w d' := h.step (.scratch hsame)

theorem ignoresRuns_reached : IgnoresRuns (Reached crc o clean active x w) := fun _ _ h ↦
  h.scratch ⟨rfl, rfl, rfl, rfl, rfl, rfl⟩

private theorem ignoresRejects_reached :
    IgnoresRejects (Reached crc o clean active x w) := fun _ _ h ↦
  h.scratch ⟨rfl, rfl, rfl, rfl, rfl, rfl⟩

private theorem ignoresStaging_reached :
    IgnoresStaging (Reached crc o clean active x w) := fun _ _ h ↦
  h.scratch ⟨rfl, rfl, rfl, rfl, rfl, rfl⟩

/-! ## Reading the segments -/

/-- Where the first phase stands: `consumed` has been read, and `rest` is still to be. -/
structure Reading (active w : ℕ) (consumed rest : List ℕ) (d : Disk) : Prop where
  sorted : (consumed ++ rest).Pairwise (· < ·)
  above : ∀ id ∈ consumed ++ rest, w < id
  there : ∀ id ∈ consumed, id ∈ d.wal
  passed : ∀ id ∈ d.wal, w < id → id ∈ consumed ++ rest ∨ ∀ j ∈ consumed ++ rest, j < id
  below : ∀ id ∈ consumed ++ rest, id < active
  next : active ∈ d.wal

namespace Reading

variable {consumed rest : List ℕ} {id : ℕ} {d : Disk}

theorem of_wal {d' : Disk} (h : Reading active w consumed rest d) (hwal : d'.wal = d.wal) :
    Reading active w consumed rest d' := by
  refine ⟨h.sorted, h.above, ?_, ?_, h.below, ?_⟩
  · rw [hwal]
    exact h.there
  · rw [hwal]
    exact h.passed
  · rw [hwal]
    exact h.next

private theorem consume (h : Reading active w consumed (id :: rest) d) (hid : id ∈ d.wal) :
    Reading active w (consumed ++ [id]) rest d := by
  have hlist : consumed ++ [id] ++ rest = consumed ++ id :: rest := by simp
  refine ⟨hlist ▸ h.sorted, hlist ▸ h.above, ?_, hlist ▸ h.passed, hlist ▸ h.below, h.next⟩
  rw [List.forall_mem_append, List.forall_mem_singleton]
  exact ⟨h.there, hid⟩

private theorem setAside (h : Reading active w consumed (id :: rest) d) (b : Bytes) :
    Reading active w consumed rest (d.quarantined id b) := by
  have hsublist : (consumed ++ rest).Sublist (consumed ++ id :: rest) :=
    (List.sublist_cons_self id rest).append_left consumed
  have hsub : ∀ j ∈ consumed ++ rest, j ∈ consumed ++ id :: rest := fun j hj ↦ hsublist.subset hj
  have hmem : ∀ k, k ∈ (d.quarantined id b).wal ↔ k ∈ d.wal ∧ k ≠ id := by
    intro k
    rw [Disk.quarantined, Std.ExtTreeMap.mem_erase, Ne, Nat.compare_eq_eq, and_comm, eq_comm]
  have hlt := (List.pairwise_append.1 h.sorted).2.2
  refine ⟨h.sorted.sublist hsublist, fun j hj ↦ h.above j (hsub j hj), fun j hj ↦ ?_,
    fun k hk hw ↦ ?_, fun j hj ↦ h.below j (hsub j hj), ?_⟩
  · exact (hmem j).2 ⟨h.there j hj, (hlt j hj id List.mem_cons_self).ne⟩
  · obtain ⟨hk, hne⟩ := (hmem k).1 hk
    refine (h.passed k hk hw).imp (fun hj ↦ ?_) fun hall j hj ↦ hall j (hsub j hj)
    simpa [hne] using hj
  · exact (hmem active).2 ⟨h.next, (h.below id (by simp)).ne'⟩

theorem consumes (h : Reading active w consumed rest d) : Consumes active w consumed d := by
  refine ⟨(List.pairwise_append.1 h.sorted).1, fun id hid ↦ h.above id (List.mem_append_left _ hid),
    fun id hid ↦ h.below id (List.mem_append_left _ hid), h.there, fun id hid hw ↦ ?_⟩
  have hlt := (List.pairwise_append.1 h.sorted).2.2
  rcases h.passed id hid hw with hmem | hall
  · exact (List.mem_append.1 hmem).imp_right fun hr j hj ↦ hlt j hj id hr
  · exact .inr fun j hj ↦ hall j (List.mem_append_left _ hj)

end Reading

/-- **The first phase** consumes the segments in order, up to one that it can neither read nor move
aside. -/
theorem Gathered.decodeSegments_triple {tmp : Std.ExtTreeMap Path Parquet} (m : Manifest)
    (budget : ℕ) (ids : List ℕ) (s : Gathered) (hok : s.batch.Ok) :
    Triple o (fun d ↦ (Reached crc o clean active x w d ∧ d.tmp = tmp) ∧
        Reading active w s.consumed ids d)
      (Gathered.decodeSegments crc m budget s ids)
      (fun g d ↦ (Reached crc o clean active x w d ∧ d.tmp = tmp) ∧ Consumes active w g.consumed d)
      (fun _ ↦ Reached crc o clean active x w) (Reached crc o clean active x w) := by
  let I : List ℕ → Gathered → Disk → Prop := fun rest g d ↦
    ((Reached crc o clean active x w d ∧ d.tmp = tmp) ∧ Reading active w g.consumed rest d) ∧
      g.batch.Ok
  have hmoved : ∀ {id rest g d} {f : SegFile} {e}, I (id :: rest) g d → d.wal[id]? = some f →
      parseSegmentHeader f.bytes = .error e →
      Reached crc o clean active x w (d.quarantined id f.bytes) := by
    rintro id rest g d f e ⟨⟨⟨hd, -⟩, hreading⟩, -⟩ hf hheader
    exact hd.step (.setAside hf hheader (hreading.above id (by simp)) (hreading.below id (by simp))
      hreading.next)
  have hphase : Gathered.Phase o crc m budget I I
      (fun g d ↦ (Reached crc o clean active x w d ∧ d.tmp = tmp) ∧ Consumes active w g.consumed d)
      (fun _ ↦ Reached crc o clean active x w) (Reached crc o clean active x w) := by
    refine ⟨fun id rest g ↦ ?_, fun hd ↦ hd.1.1.1, fun hd hf hheader ↦ ?_,
      fun hd hf hheader _ ↦ ?_, fun {id rest g d f hid} hd hf hheader ↦ ?_, fun rest g ↦ ?_,
      fun hd ↦ ⟨hd.1.1, hd.1.2.consumes⟩⟩
    · exact (readSegment_keeps id).exits (fun _ _ hd ↦ hd.1.1.1) fun _ hd ↦ hd.1.1.1
    · have hreached := hmoved hd hf hheader
      exact ⟨hreached, ⟨⟨hreached, hd.1.1.2⟩, hd.1.2.setAside _⟩, hd.2⟩
    · exact ⟨⟨hd.1.1, hd.1.2.consumes⟩, ⟨hmoved hd hf hheader, hd.1.1.2⟩,
        (hd.1.2.setAside _).consumes⟩
    · obtain ⟨reader, hreader⟩ :
          ∃ reader, SegmentReader.new f.bytes f.bytes.length = .ok reader := by
        rw [SegmentReader.new, hheader]
        exact ⟨_, rfl⟩
      have hrejects : IgnoresRejects fun d ↦ (Reached crc o clean active x w d ∧ d.tmp = tmp) ∧
          Reading active w (g.consumed ++ [id]) rest d := fun d r hd ↦
        ⟨⟨ignoresRejects_reached d r hd.1.1, hd.1.2⟩, hd.2.of_wal rfl⟩
      refine (decodeSegment_triple hrejects hd.2 hreader).conseq ?_
        (fun r d' hd' ↦ ⟨hd'.2.readable, hd'.1, hd'.2.ok⟩) (fun _ _ ↦ False.elim)
        fun _ hd' ↦ hd'.1.1
      rintro _ rfl
      exact ⟨hd.1.1, hd.1.2.consume (mem_of_getElem? hf)⟩
    · have hruns : IgnoresRuns fun d ↦ (Reached crc o clean active x w d ∧ d.tmp = tmp) ∧
          Reading active w g.consumed rest d := fun d r hd ↦
        ⟨⟨ignoresRuns_reached d r hd.1.1, hd.1.2⟩, hd.2.of_wal rfl⟩
      refine .intro fun d hd ↦ (Gathered.relieve_keeps hruns g budget rest).conseq ?_ ?_
        (fun _ _ hd' ↦ hd'.1.1) fun _ hd' ↦ hd'.1.1
      · rintro _ rfl
        exact hd.1
      · rintro g' d' ⟨⟨hd', hreading⟩, hconsumed, -, hok'⟩
        exact ⟨⟨hd', hconsumed ▸ hreading⟩, hok' hd.2⟩
  exact (hphase.triple ids s).pre fun d hd ↦ ⟨hd, hok⟩

/-! ## Staging -/

section Staging

variable {config : Config} {first last : ℕ} {ids : List ℕ}

/-- What staging keeps: the segments are not touched. -/
def Staging (crc : Bytes → UInt32) (o : Oracle Op) (clean : Prop) (active : ℕ)
    (x : ℕ × Disk) (w : ℕ)
    (ids : List ℕ) (d : Disk) : Prop := Reached crc o clean active x w d ∧ Consumes active w ids d

theorem Consumes.of_wal {d d' : Disk} (h : Consumes active w ids d) (hwal : d'.wal = d.wal) :
    Consumes active w ids d' := by
  refine ⟨h.sorted, h.above, h.below, ?_, ?_⟩
  · rw [hwal]
    exact h.there
  · rw [hwal]
    exact h.passed

private theorem ignoresRuns_staging :
    IgnoresRuns (Staging crc o clean active x w ids) := fun d r h ↦
  ⟨ignoresRuns_reached d r h.1, h.2.of_wal rfl⟩

theorem isOutput_target (hle : first ≤ last) (flush : FlushConfig) (key : GroupKey)
    (keys : List KeyDef) (ts : ℕ) : IsOutput last ((target flush first last key keys).path ts) :=
  ⟨_, _, _, _, hle, rfl⟩

private theorem ignored_staging (hle : first ≤ last) (flush : FlushConfig) (key : GroupKey)
    (keys : List KeyDef) (hlast : w < last) :
    (target flush first last key keys).Ignored (Staging crc o clean active x w ids) :=
      fun ts _ f h ↦
  ⟨h.1.step (.stage f (isOutput_target hle flush key keys ts) hlast), h.2.of_wal rfl⟩

/-- **Staging** leaves a flush that is ready to be committed. -/
theorem stage_triple {tmp : Std.ExtTreeMap Path Parquet} {g : Gathered}
    (hclean : clean → ∀ p ∈ tmp, Covered w p) (hfirst : g.consumed.head? = some first)
    (hlast : g.consumed.getLast? = some last) :
    Triple o (fun d ↦ (Reached crc o clean active x w d ∧ d.tmp = tmp) ∧
      Consumes active w g.consumed d) (stage config g first last)
      (fun plan d ↦ Reached crc o clean active x w d ∧ plan.Ready clean active w d)
      (fun _ ↦ Reached crc o clean active x w) (Reached crc o clean active x w) := by
  refine .intro ?_
  rintro d₁ ⟨⟨hd₁, rfl⟩, hconsumes⟩
  have habove : w < last := hconsumes.above last (List.mem_of_getLast? hlast)
  have hle : first ≤ last :=
    ((getLast?_eq_some_iff hconsumes.sorted).1 hlast).2 first (List.mem_of_head? hfirst)
  refine Triple.conseq (stage_keeps (P := Staging crc o clean active x w g.consumed)
    (N := IsOutput last) (B := (· ∈ d₁.tmp)) ignoresRuns_staging
    (fun key keys ↦ ignored_staging hle config.flush key keys habove)
    (isOutput_target hle config.flush) g) ?_ ?_ (fun _ _ ↦ And.left) fun _ ↦ And.left
  · rintro d rfl
    exact ⟨⟨hd₁, hconsumes⟩, fun _ ↦ id⟩
  · rintro plan d ⟨⟨hd, hconsumes⟩, hids, rfl, -, hstaged, htracked⟩
    rw [← hids] at hconsumes hlast
    exact ⟨hd, hconsumes, hlast, hstaged, fun hc p hp ↦ (htracked p hp).imp_left (hclean hc p)⟩

/-- What the part before the commit leaves: a flush with nothing to commit has staged nothing. -/
inductive Prepared (crc : Bytes → UInt32) (o : Oracle Op) (clean : Prop) (active : ℕ) (x : ℕ × Disk)
    (w : ℕ)
    (tmp : Std.ExtTreeMap Path Parquet) : FlushOutcome ⊕ Plan → Disk → Prop
  | nothing {outcome : FlushOutcome} {d : Disk} (hd : Reached crc o clean active x w d)
      (htmp : d.tmp = tmp) :
      Prepared crc o clean active x w tmp (.inl outcome) d
  | plan {plan : Plan} {d : Disk} (hd : Reached crc o clean active x w d)
      (hready : plan.Ready clean active w d) :
      Prepared crc o clean active x w tmp (.inr plan) d

/-- **Everything before the commit.** -/
theorem prepare_triple {tmp : Std.ExtTreeMap Path Parquet} (m : Manifest)
    (hclean : clean → ∀ p ∈ tmp, Covered w p) (ids : List ℕ) :
    Triple o (fun d ↦ (Reached crc o clean active x w d ∧ d.tmp = tmp) ∧ Reading active w [] ids d)
      (prepare crc config m ids) (Prepared crc o clean active x w tmp)
      (fun _ ↦ Reached crc o clean active x w) (Reached crc o clean active x w) := by
  refine .bind (Gathered.decodeSegments_triple m config.flush.memoryBudgetBytes.toNat ids
    { rejects := ⟨config.limits.rejectMaxBytes.toNat, none⟩ } Batch.ok_empty) fun g ↦ ?_
  split
  next first last hfirst hlast =>
    split_ifs
    · exact .ret fun d hd ↦ .nothing hd.1.1 hd.1.2
    · exact .bind (stage_triple hclean hfirst hlast) fun plan ↦ .ret fun d hd ↦ .plan hd.1 hd.2
  next => exact .ret fun d hd ↦ .nothing hd.1.1 hd.1.2

end Staging

/-! ## Publishing -/

/-- What a watermark covers stays covered by a higher one. -/
theorem Covered.mono {w w' : ℕ} {p : Path} (h : Covered w p) (hle : w ≤ w') : Covered w' p :=
  fun r hr ↦ (h r hr).trans hle

theorem IsOutput.covered {last : ℕ} {p : Path} (h : IsOutput last p) {w : ℕ} (hle : last ≤ w) :
    Covered w p := fun _ hr ↦ (h.last_eq hr).trans_le hle

/-- The directory after a commit: the watermark on disk is that in memory, and everything in `tmp/`
is covered if it was before. -/
structure Published (crc : Bytes → UInt32) (o : Oracle Op) (clean : Prop) (active : ℕ)
    (x : ℕ × Disk) (w : ℕ)
    (d : Disk) : Prop where
  reached : Reached crc o clean active x w d
  watermark : d.watermark = w
  covered : clean → ∀ p ∈ d.tmp, Covered w p

theorem mem_of_mem_erase {tmp : Std.ExtTreeMap Path Parquet} {p q : Path} (h : q ∈ tmp.erase p) :
    q ∈ tmp := (Std.ExtTreeMap.mem_erase.1 h).2

theorem Published.promote_keeps {p : Path} (hp : Covered w p) :
    Keeps o (Published crc o clean active x w) (promote p) :=
  promote_triple (.of_keeps _ o _ ioError) (fun _ ↦ id) (fun _ ↦ id) (fun _ hd _ ↦ hd)
    fun _ _ hd hf ↦
    ⟨hd.reached.step (.promote hf hp), hd.watermark,
    fun hc q hq ↦ hd.covered hc q (mem_of_mem_erase hq)⟩

theorem Published.delete_keeps {id : ℕ} (hid : id ≤ w) :
    Keeps o (Published crc o clean active x w) (removeSegment id) :=
  Io.step_keeps fun _ hd ↦
    ⟨hd.reached.step (.delete (hid.trans_eq hd.watermark.symm)), hd.watermark, hd.covered⟩

theorem Published.views_keeps (m : Manifest) (touched : List String) :
    Keeps o (Published crc o clean active x w) (regenerateViews m touched) := by
  refine .forM (fun name ↦ Io.ignore_triple ((Io.touch_keeps _).bind fun _ ↦
    Io.step_keeps fun _ hd ↦ ?_)) _
  exact ⟨hd.reached.scratch ⟨rfl, rfl, rfl, rfl, rfl, rfl⟩, hd.watermark, hd.covered⟩

/-- **The commit and what follows it.** The watermark in memory has been advanced even if the commit
failed. -/
theorem publish_triple {plan : Plan} {m : Manifest} (hm : m.lastFlushedSegment = max w plan.last) :
    Triple o (fun d ↦ Reached crc o clean active x w d ∧ plan.Ready clean active w d)
      (publish m plan) (fun _ ↦ Published crc o clean active x (max w plan.last))
      (fun _ ↦ Reached crc o clean active x (max w plan.last))
      (fun d ↦ ∃ w', Reached crc o clean active x w' d) := by
  have hstaging : IgnoresStaging fun d ↦ Reached crc o clean active x w d ∧
      plan.Ready clean active w d :=
    fun d f hd ↦ ⟨ignoresStaging_reached d f hd.1, hd.2.consumes.of_wal rfl, hd.2.last, hd.2.staged,
      hd.2.tracked⟩
  have hcommitted : ∀ d, (∃ d₁, (Reached crc o clean active x w d₁ ∧ plan.Ready clean active w d₁) ∧
      d = d₁.recorded m (some (plan.ids, plan.staged))) →
      Published crc o clean active x (max w plan.last) d := by
    rintro d ⟨d₁, ⟨hd₁, hready⟩, rfl⟩
    refine ⟨Relation.ReflTransGen.tail hd₁ (.commit hready hm), hm, fun hc p hp ↦ ?_⟩
    rcases hready.tracked hc p hp with hold | hnew
    · exact hold.mono (le_max_left _ _)
    · exact (hready.staged p hnew).2.covered (le_max_right _ _)
  refine .intro fun d₁ hd₁ ↦ ?_
  have hstart : ∀ d, d = d₁ → Reached crc o clean active x w d ∧ plan.Ready clean active w d :=
    fun d hd ↦ hd ▸ hd₁
  refine .bind ((Manifest.commit_triple hstaging m _).conseq hstart (fun _ ↦ hcommitted) ?_ ?_)
    fun _ ↦ ?_
  · rintro _ d ⟨-, ⟨⟨hd, hready⟩, hfails⟩ | ⟨hd, -⟩⟩
    · exact Relation.ReflTransGen.tail hd (.advance hready hfails)
    · exact (hcommitted d hd).reached
  · rintro d (⟨hd, -⟩ | hd)
    · exact ⟨w, hd⟩
    · exact ⟨_, (hcommitted d hd).reached⟩
  have hle : ∀ id ∈ plan.ids, id ≤ max w plan.last := by
    intro id hid
    obtain ⟨-, hmax⟩ := (getLast?_eq_some_iff hd₁.2.consumes.sorted).1 hd₁.2.last
    exact (hmax id hid).trans (le_max_right _ _)
  have hloops : Keeps o (Published crc o clean active x (max w plan.last)) (do
      plan.staged.forM promote
      deleteSegments plan.ids
      regenerateViews m plan.touched) :=
    (Keeps.forM_of_mem fun p hp ↦ Published.promote_keeps
      ((hd₁.2.staged p hp).2.covered (le_max_right _ _))).bind fun _ ↦
    ((Keeps.forM_of_mem fun id hid ↦ Published.delete_keeps (hle id hid)).bind fun _ ↦
      Io.touch_keeps _).bind fun _ ↦ Published.views_keeps m plan.touched
  exact hloops.exits (fun _ _ hd ↦ hd.reached) fun d hd ↦ ⟨_, hd.reached⟩

/-- **A flush** changes the directory by effects. If it returns without an error, what is in `tmp/`
is covered if it was before. -/
theorem run_triple {config : Config} {m : Manifest} (hm : m.lastFlushedSegment = w) (now : ℕ)
    (segments : List ℕ) :
    Triple o (fun d ↦ Reached crc o clean active x w d ∧ (clean → ∀ p ∈ d.tmp, Covered w p) ∧
        Reading active w [] (canon (fun n : ℕ ↦ n) (fun n ↦ n) segments) d)
      (run crc config m now segments)
      (fun r d ↦ Reached crc o clean active x r.1.lastFlushedSegment d ∧
        (r.2.isOk = true → clean → ∀ p ∈ d.tmp, Covered r.1.lastFlushedSegment p))
      (fun _ _ ↦ False) (fun d ↦ ∃ w', Reached crc o clean active x w' d) := by
  have hcrash : ∀ {w' : ℕ} (d : Disk), Reached crc o clean active x w' d →
      ∃ w', Reached crc o clean active x w' d := fun {w'} _ hd ↦ ⟨w', hd⟩
  rw [run]
  split_ifs
  · refine .ret fun d hd ↦ ?_
    rw [hm]
    exact ⟨hd.1, fun _ ↦ hd.2.1⟩
  refine .intro ?_
  rintro d₁ ⟨hd₁, hcovered, hreading⟩
  have hruns : IgnoresRuns fun d ↦ (Reached crc o clean active x w d ∧ d.tmp = d₁.tmp) ∧
      Reading active w [] (canon (fun n : ℕ ↦ n) (fun n ↦ n) segments) d := fun d r hd ↦
    ⟨⟨ignoresRuns_reached d r hd.1.1, hd.1.2⟩, hd.2.of_wal rfl⟩
  refine .bind (((clearRuns_triple hruns).pre ?_).exits (fun _ _ ↦ False.elim)
    fun d hd ↦ hcrash d hd.1.1) fun _ ↦ .bind (Q := fun r d ↦ match r with
      | .error _ => Reached crc o clean active x w d
      | .ok r => Prepared crc o clean active x w d₁.tmp r d)
    (.attempt ((prepare_triple m hcovered _).exits (fun _ _ hd ↦ hd) hcrash)) fun r ↦ ?_
  · rintro d rfl
    exact ⟨⟨hd₁, rfl⟩, hreading⟩
  have hclear : ∀ w' {E : Error → Disk → Prop}, Triple o (Reached crc o clean active x w') clearRuns
      (fun _ ↦ Reached crc o clean active x w') E
        (fun d ↦ ∃ w', Reached crc o clean active x w' d) :=
    fun w' {E} ↦ (clearRuns_triple ignoresRuns_reached).exits (fun _ _ hd ↦ hd) hcrash
  rcases r with e | outcome | plan
  · refine .bind (hclear w) fun _ ↦ .ret fun d hd ↦ ?_
    rw [hm]
    exact ⟨hd, nofun⟩
  · have htmp : IgnoresRuns fun d ↦ Reached crc o clean active x w d ∧ d.tmp = d₁.tmp :=
      fun d r hd ↦
      ⟨ignoresRuns_reached d r hd.1, hd.2⟩
    refine .bind (((clearRuns_triple htmp).pre ?_).exits (fun _ _ hd ↦ hd) fun d hd ↦ hcrash d hd.1)
      fun _ ↦ .ret fun d hd ↦ ?_
    · rintro d (⟨hd, heq⟩ | _)
      exact ⟨hd, heq⟩
    · rw [hm]
      refine ⟨hd.1, fun _ hc ↦ ?_⟩
      rw [hd.2]
      exact hcovered hc
  · have hadvance : (m.advance plan.last now).lastFlushedSegment = max w plan.last := by
      rw [← hm]
      rfl
    have hignores : IgnoresRuns (Published crc o clean active x (max w plan.last)) := fun d r hd ↦
      ⟨ignoresRuns_reached d r hd.reached, hd.watermark, hd.covered⟩
    refine .bind (Q := fun r d ↦ match r with
      | .error _ => Reached crc o clean active x (max w plan.last) d
      | .ok _ => Published crc o clean active x (max w plan.last) d)
      (.attempt ((publish_triple hadvance).pre ?_)) fun r ↦ ?_
    · rintro d (_ | ⟨hd, hready⟩)
      exact ⟨hd, hready⟩
    · cases r with
      | error e =>
        refine .bind (hclear _) fun _ ↦ .ret fun d hd ↦ ?_
        simp only [hadvance]
        exact ⟨hd, nofun⟩
      | ok _ =>
        refine .bind ((clearRuns_triple hignores).exits (fun _ _ hd ↦ hd)
          fun d hd ↦ hcrash d hd.reached) fun _ ↦ .ret fun d hd ↦ ?_
        simp only [hadvance]
        exact ⟨hd.reached, fun _ ↦ hd.covered⟩

/-! ## The sweep -/

/-- Effects that leave the segments and the manifest alone. -/
structure Sweeping (crc : Bytes → UInt32) (o : Oracle Op) (clean : Prop) (active : ℕ) (x : ℕ × Disk)
    (w : ℕ) (d : Disk) : Prop where
  reached : Reached crc o clean active x w d
  wal : d.wal = x.2.wal
  manifest : d.manifest = x.2.manifest

theorem Sweeping.step {d d' : Disk} (h : Sweeping crc o clean active x w d)
    (heffect : Effect crc o clean active (w, d) (w, d')) (hwal : d'.wal = d.wal)
    (hmanifest : d'.manifest = d.manifest) : Sweeping crc o clean active x w d' :=
  ⟨h.reached.step heffect, hwal.trans h.wal, hmanifest.trans h.manifest⟩

private theorem ignoresRuns_sweeping : IgnoresRuns (Sweeping crc o clean active x w) := fun _ _ h ↦
  h.step (.scratch ⟨rfl, rfl, rfl, rfl, rfl, rfl⟩) rfl rfl

/-- A sweep that could list `tmp/` leaves none of its files. -/
def Swept (o : Oracle Op) (d : Disk) : Prop :=
  ¬ Failed o .tmpList → ∀ p ∈ d.tmp, p.length ≠ 3

theorem settle_triple {T U : Std.ExtTreeMap Path Parquet → Prop} {p : Path}
    (hT : ∀ tmp, T tmp → U (tmp.erase p)) :
    Triple o (fun d ↦ Sweeping crc o clean active x w d ∧ T d.tmp) (settle w (p, outputRange p))
      (fun _ d ↦ Sweeping crc o clean active x w d ∧ U d.tmp)
        (fun _ ↦ Sweeping crc o clean active x w)
      (Sweeping crc o clean active x w) := by
  unfold settle
  by_cases hany : (outputRange p).any (fun r ↦ r.2.1 ≤ w) = true
  · have hcovered : Covered w p := by
      intro r hr
      rw [hr] at hany
      exact of_decide_eq_true hany
    rw [if_pos hany]
    exact promote_triple (.of_keeps _ o _ ioError) (fun _ ↦ And.left) (fun _ ↦ And.left)
      (fun _ hd _ ↦ hd.1) fun d f hd hf ↦ ⟨hd.1.step (.promote hf hcovered) rfl rfl, hT _ hd.2⟩
  · have habove : ∀ r, outputRange p = some r → w < r.2.1 := by
      intro r hr
      rw [hr] at hany
      exact not_le.1 fun hle ↦ hany (decide_eq_true hle)
    rw [if_neg hany]
    exact Io.step_exits (.of_keeps _ o _ ioError) (fun _ ↦ And.left) fun d hd ↦
      ⟨hd.1.step (.discard habove) rfl rfl, hT _ hd.2⟩

theorem Swept.erase {d : Disk} (h : Swept o d) (p : Path) :
    Swept o { d with tmp := d.tmp.erase p } := fun hnot q hq ↦ h hnot q (mem_of_mem_erase hq)

theorem sweepFlat_keeps : Keeps o (fun d ↦ Sweeping crc o clean active x w d ∧ Swept o d)
    sweepFlat := by
  refine .intro fun d₁ hd₁ ↦ ?_
  refine .bind (entries_triple.exits (fun _ _ hd ↦ hd) fun d hd ↦ hd ▸ hd₁) fun flat ↦ .intro ?_
  rintro d₂ ⟨rfl, hflat⟩
  refine Triple.pre (Keeps.forM_of_mem fun p hp ↦ Io.ignore_triple (Io.step_keeps fun d hd ↦
    ⟨hd.1.step (.discardFlat ?_) rfl rfl, hd.2.erase p⟩)) fun d hd ↦ hd ▸ hd₁
  rcases hflat with rfl | ⟨rfl, -⟩
  · simpa using (List.mem_filter.1 hp).2
  · cases hp

theorem sweepOutput_keeps :
    Keeps o (fun d ↦ Sweeping crc o clean active x w d ∧ Swept o d) (sweepOutput w) := by
  refine .intro fun d₁ hd₁ ↦ ?_
  refine .bind (outputFiles_triple.exits (fun _ _ hd ↦ hd) fun d hd ↦ hd ▸ hd₁) fun out ↦ .intro ?_
  rintro d₂ ⟨rfl, hout, -⟩
  refine Triple.pre (Keeps.forM_of_mem fun y hy ↦ ?_) fun d hd ↦ hd ▸ hd₁
  split_ifs with hle
  · exact .ret _
  · refine Io.ignore_triple (Io.step_keeps fun d hd ↦ ⟨hd.1.step ?_ rfl rfl, hd.2⟩)
    exact .discardOutput (hout y hy).2 (not_le.1 hle)

/-- **The sweep** promotes what the watermark covers and removes the rest. -/
theorem sweepUncommitted_triple :
    Triple o (Sweeping crc o clean active x w) (sweepUncommitted w)
      (fun _ d ↦ Sweeping crc o clean active x w d ∧ Swept o d)
      (fun _ ↦ Sweeping crc o clean active x w) (Sweeping crc o clean active x w) := by
  refine .bind (clearRuns_triple ignoresRuns_sweeping) fun _ ↦ .intro fun d₁ hd₁ ↦ ?_
  refine .bind (stagedFiles_triple.exits (fun _ _ hd ↦ hd) fun d hd ↦ hd ▸ hd₁) fun staged ↦
    .intro ?_
  rintro d₂ ⟨rfl, hstaged, hall⟩
  -- the invariant: a file still there is one still to be settled
  have hloop : ∀ rest : List (Path × Option (ℕ × ℕ × UInt32)), (∀ y ∈ rest, y.2 = outputRange y.1) →
      Triple o (fun d ↦ Sweeping crc o clean active x w d ∧
          (¬ Failed o .tmpList → ∀ p ∈ d.tmp, p.length = 3 → (p, outputRange p) ∈ rest))
        (rest.forM (settle w)) (fun _ d ↦ Sweeping crc o clean active x w d ∧ Swept o d)
        (fun _ ↦ Sweeping crc o clean active x w) (Sweeping crc o clean active x w) := by
    intro rest hrest
    induction rest with
    | nil => exact .ret fun d hd ↦ ⟨hd.1, fun hnot p hp hlen ↦ nomatch hd.2 hnot p hp hlen⟩
    | cons y rest ih =>
      obtain ⟨p, r⟩ := y
      obtain rfl : r = outputRange p := hrest _ List.mem_cons_self
      refine .bind (settle_triple (T := fun tmp ↦ ¬ Failed o .tmpList → ∀ q ∈ tmp, q.length = 3 →
          (q, outputRange q) ∈ (p, outputRange p) :: rest)
        (U := fun tmp ↦ ¬ Failed o .tmpList → ∀ q ∈ tmp, q.length = 3 → (q, outputRange q) ∈ rest)
        fun tmp hT hnot q hq hlen ↦ ?_) fun _ ↦ ih fun y hy ↦ hrest y (List.mem_cons_of_mem _ hy)
      obtain ⟨hne, hq⟩ := Std.ExtTreeMap.mem_erase.1 hq
      refine (List.mem_cons.1 (hT hnot q hq hlen)).resolve_left fun heq ↦ hne ?_
      rw [(Prod.mk.inj heq).1]
      exact Std.ReflCmp.compare_self
  refine .bind ((hloop staged fun y hy ↦ (hstaged y hy).2).pre fun d hd ↦ hd ▸ ⟨hd₁, hall⟩) fun _ ↦
    .bind (sweepFlat_keeps.exits (fun _ _ ↦ And.left) fun _ ↦ And.left) fun _ ↦
      sweepOutput_keeps.exits (fun _ _ ↦ And.left) fun _ ↦ And.left

/-! ## Recovery -/

/-- Effects that leave `tmp/` alone, at a disk whose watermark is the one in memory. -/
structure Settled (crc : Bytes → UInt32) (o : Oracle Op) (clean : Prop) (active : ℕ) (x : ℕ × Disk)
    (w : ℕ) (d : Disk) : Prop where
  reached : Reached crc o clean active x w d
  watermark : d.watermark = w
  tmp : d.tmp = x.2.tmp

/-- What recovery does to the tail beside cutting it off: nothing, or it removes a tail without a
header or moves one aside whose header is wrong. -/
inductive Recovered (w : ℕ) (d : Disk) : Disk → Prop
  | kept (h : ∀ tail, d.IsTail w tail → ∃ f hid, d.wal[tail]? = some f ∧
      parseSegmentHeader f.bytes = .ok hid) : Recovered w d d
  | dropped {tail needed got : ℕ} {f : SegFile} (htail : d.IsTail w tail)
      (hf : d.wal[tail]? = some f)
      (hheader : parseSegmentHeader f.bytes = .error (.truncated needed got)) :
      Recovered w d { d with wal := d.wal.erase tail }
  | setAside {tail : ℕ} {f : SegFile} {reason : String} (htail : d.IsTail w tail)
      (hf : d.wal[tail]? = some f)
      (hheader : parseSegmentHeader f.bytes = .error (.corrupt reason))
      (hreason : reason ≠ unsupportedVersion) : Recovered w d (d.quarantined tail f.bytes)

theorem Settled.step {d d' : Disk} (h : Settled crc o clean active x w d)
    (heffect : Effect crc o clean active (w, d) (w, d')) (hmanifest : d'.manifest = d.manifest)
    (htmp : d'.tmp = d.tmp) : Settled crc o clean active x w d' := by
  refine ⟨h.reached.step heffect, ?_, htmp.trans h.tmp⟩
  rw [← h.watermark, Disk.watermark, Disk.watermark, hmanifest]

theorem deleteFlushed_triple {wal : Std.ExtTreeMap ℕ SegFile} {ids : List ℕ}
    (hids : ∀ id ∈ ids, id ≤ w) :
    Triple o (fun d ↦ Settled crc o clean active x w d ∧ d.wal = wal) (deleteFlushed ids)
      (fun _ d ↦ Settled crc o clean active x w d ∧ d.wal = ids.foldl (fun m id ↦ m.erase id) wal)
      (fun _ ↦ Settled crc o clean active x w) (Settled crc o clean active x w) := by
  have hx := Exits.of_keeps Op.onFiles o (Settled crc o clean active x w) ioError
  have hloop : ∀ (ids : List ℕ) (wal : Std.ExtTreeMap ℕ SegFile), (∀ id ∈ ids, id ≤ w) →
      Triple o (fun d ↦ Settled crc o clean active x w d ∧ d.wal = wal) (ids.forM removeSegment)
        (fun _ d ↦ Settled crc o clean active x w d ∧ d.wal = ids.foldl (fun m id ↦ m.erase id) wal)
        (fun _ ↦ Settled crc o clean active x w) (Settled crc o clean active x w) := by
    intro ids
    induction ids with
    | nil => exact fun wal _ ↦ .ret fun _ ↦ id
    | cons k ids ih =>
      intro wal hids
      refine .bind (Q := fun _ d ↦ Settled crc o clean active x w d ∧ d.wal = wal.erase k)
        (Io.step_exits hx (fun _ ↦ And.left) ?_) fun _ ↦
          ih (wal.erase k) fun j hj ↦ hids j (List.mem_cons_of_mem k hj)
      rintro d ⟨hd, rfl⟩
      exact ⟨hd.step (.delete ((hids k List.mem_cons_self).trans_eq hd.watermark.symm)) rfl
        rfl, rfl⟩
  refine .bind (hloop ids wal hids) fun _ ↦ ?_
  split_ifs
  · exact .ret fun _ ↦ id
  · exact Io.touch_exits hx fun _ ↦ And.left

/-- The same segments as `wal`, where the tail has a header. -/
structure Scanned (wal : Std.ExtTreeMap ℕ SegFile) (tail : ℕ) (d : Disk) : Prop where
  mem : ∀ k, k ∈ d.wal ↔ k ∈ wal
  header : ∃ f hid, d.wal[tail]? = some f ∧ parseSegmentHeader f.bytes = .ok hid

theorem Scanned.onSegment {wal : Std.ExtTreeMap ℕ SegFile} {tail : ℕ} {d : Disk}
    {g : SegFile → SegFile} (h : Scanned wal tail d)
    (hg : ∀ f, parseSegmentHeader (g f).bytes = parseSegmentHeader f.bytes) :
    Scanned wal tail (d.onSegment tail g) := by
  obtain ⟨f, hid, hf, hheader⟩ := h.header
  refine ⟨fun k ↦ mem_updateFile.trans (h.mem k), g f, hid, ?_, (hg f).trans hheader⟩
  rw [Disk.onSegment, getElem?_updateFile, if_pos rfl, hf]
  rfl

theorem scanTail_triple {wal : Std.ExtTreeMap ℕ SegFile} (tail : ℕ) :
    Triple o (fun d ↦ Settled crc o clean active x w d ∧ d.wal = wal) (scanTail crc tail)
      (fun r d ↦ Settled crc o clean active x w d ∧
        ((∃ n m, r = .scanned n m) ∧ Scanned wal tail d ∨
          ∃ (f : SegFile) (e : DecodeError), d.wal = wal ∧ wal[tail]? = some f ∧
            parseSegmentHeader f.bytes = .error e ∧ r = .ofError e))
      (fun _ ↦ Settled crc o clean active x w) (Settled crc o clean active x w) := by
  have hx := Exits.of_keeps Op.onFiles o (Settled crc o clean active x w) ioError
  refine .bind ((readSegment_keeps tail).exits (fun _ _ ↦ And.left) fun _ ↦ And.left) fun bytes ↦
    .intro ?_
  rintro d₁ ⟨⟨hd₁, rfl⟩, f, hf, rfl⟩
  cases hheader : parseSegmentHeader f.bytes with
  | error e =>
    refine .ret ?_
    rintro d rfl
    exact ⟨hd₁, .inr ⟨f, e, rfl, hf, hheader, rfl⟩⟩
  | ok hid =>
    have hscanned : Scanned d₁.wal tail d₁ := ⟨fun _ ↦ Iff.rfl, f, hid, hf, hheader⟩
    obtain ⟨fs, rest, hcut⟩ := exists_cut crc f.bytes.length (f.bytes.drop segmentHeaderBytes)
    simp only [(scan_eq rfl hcut (List.length_drop.trans_le (Nat.sub_le _ _))).1]
    split_ifs
    · refine .bind (Q := fun _ d ↦ Settled crc o clean active x w d ∧ Scanned d₁.wal tail d)
        (Io.step_exits hx ?_ ?_) fun _ ↦
        .bind (Q := fun _ d ↦ Settled crc o clean active x w d ∧ Scanned d₁.wal tail d)
          (Io.step_exits hx (fun _ ↦ And.left) fun d hd ↦
            ⟨hd.1.step (.sync tail) rfl rfl, hd.2.onSegment fun _ ↦ rfl⟩) fun _ ↦
          .ret fun d hd ↦ ⟨hd.1, .inl ⟨⟨_, _, rfl⟩, hd.2⟩⟩
      · exact fun d hd ↦ hd ▸ hd₁
      · rintro d rfl
        exact ⟨hd₁.step (.truncate hf hheader hcut) rfl rfl,
          hscanned.onSegment fun f ↦ parseSegmentHeader_take f.bytes (Nat.le_add_right _ _)⟩
    · refine .ret ?_
      rintro d rfl
      exact ⟨hd₁, .inl ⟨⟨_, _, rfl⟩, hscanned⟩⟩

/-- Where recovery may end early: before it has touched the tail, or right behind that. -/
def RecoveryExit (crc : Bytes → UInt32) (o : Oracle Op) (clean : Prop) (active : ℕ) (x : ℕ × Disk)
    (w : ℕ)
    (d : Disk) : Prop :=
  ∃ d₁, Settled crc o clean active x w d₁ ∧ (d = d₁ ∨ Recovered w d₁ d ∧ Interrupted o .walDirSync)

theorem RecoveryExit.of_settled {d : Disk} (h : Settled crc o clean active x w d) :
    RecoveryExit crc o clean active x w d := ⟨d, h, .inl rfl⟩

theorem recoverTail_triple {wal : Std.ExtTreeMap ℕ SegFile} {out : Recovery} {ids : List ℕ}
    (hids : ∀ d : Disk, (∀ k, k ∈ d.wal ↔ k ∈ wal) → ∀ tail,
      ids.getLast? = some tail ↔ d.IsTail w tail) :
    Triple o (fun d ↦ Settled crc o clean active x w d ∧ d.wal = wal) (recoverTail crc out ids)
      (fun r d ↦ r.nextSegment = out.nextSegment ∧
        ∃ d₁, Settled crc o clean active x w d₁ ∧ Recovered w d₁ d)
      (fun _ ↦ RecoveryExit crc o clean active x w) (RecoveryExit crc o clean active x w) := by
  rw [recoverTail]
  cases htail : ids.getLast? with
  | none =>
    refine .ret ?_
    rintro d ⟨hd, rfl⟩
    refine ⟨rfl, d, hd, .kept fun tail ht ↦ ?_⟩
    rw [(hids d (fun _ ↦ Iff.rfl) tail).2 ht] at htail
    cases htail
  | some tail =>
    refine .bind ((scanTail_triple tail).exits (fun _ _ ↦ .of_settled) fun _ ↦ .of_settled) fun r ↦
      .intro ?_
    rintro d₁ ⟨hd₁, ⟨⟨n, k, rfl⟩, hscanned⟩ | ⟨f, e, rfl, hf, hheader, rfl⟩⟩
    · have hkept : Recovered w d₁ d₁ := .kept fun tail' htail' ↦ by
        rw [← hids d₁ hscanned.mem, htail, Option.some.injEq] at htail'
        exact htail' ▸ hscanned.header
      exact .ret fun d hd ↦ ⟨rfl, d₁, hd₁, hd ▸ hkept⟩
    have htail' := (hids d₁ (fun _ ↦ Iff.rfl) tail).1 htail
    cases e with
    | truncated needed got =>
      have hgone : Recovered w d₁ { d₁ with wal := d₁.wal.erase tail } := .dropped htail' hf hheader
      refine .look_bind (.bind (Q := fun _ d ↦ d = { d₁ with wal := d₁.wal.erase tail })
        (Io.step_exits (J := (· = d₁)) ⟨?_, ?_⟩ (fun _ hd ↦ hd) fun d hd ↦ by rw [hd]) fun _ ↦
          .bind (Q := fun _ d ↦ d = { d₁ with wal := d₁.wal.erase tail })
            (Io.step_triple ?_ ?_ ?_) fun _ ↦ .ret ?_)
      · rintro - d rfl
        exact .of_settled hd₁
      · rintro d rfl
        exact .of_settled hd₁
      · exact fun d _ hd _ ↦ hd
      · rintro d t n rfl ho
        exact ⟨d₁, hd₁, .inr ⟨hgone, interrupted_of_fails ho⟩⟩
      · rintro d t n rfl ho
        exact ⟨d₁, hd₁, .inr ⟨hgone, interrupted_of_crashes ho⟩⟩
      · rintro d rfl
        exact ⟨rfl, d₁, hd₁, hgone⟩
    | corrupt reason =>
      simp only [TailHeader.ofError]
      by_cases hreason : reason = unsupportedVersion
      · rw [if_pos hreason]
        exact .fail fun d hd ↦ hd ▸ .of_settled hd₁
      · have hgone : Recovered w d₁ (d₁.quarantined tail f.bytes) :=
          .setAside htail' hf hheader hreason
        rw [if_neg hreason]
        refine .bind ((quarantineSegment_triple hf).exits ?_ ?_) fun _ ↦ .ret ?_
        · rintro - d ⟨-, rfl | ⟨rfl, hsync⟩⟩
          · exact .of_settled hd₁
          · exact ⟨d₁, hd₁, .inr ⟨hgone, hsync⟩⟩
        · rintro d (rfl | ⟨rfl, hsync⟩)
          · exact .of_settled hd₁
          · exact ⟨d₁, hd₁, .inr ⟨hgone, hsync⟩⟩
        · rintro d rfl
          exact ⟨rfl, d₁, hd₁, hgone⟩

/-- **Recovery** deletes what is covered, cuts the tail off behind its frames, and may drop or move
aside a tail without a usable header. The next segment is above all that were there. -/
theorem recover_effects {wal : Std.ExtTreeMap ℕ SegFile} :
    Triple o (fun d ↦ Settled crc o clean active x w d ∧ d.wal = wal) (recover crc w)
      (fun r d ↦ r.nextSegment = max (wal.keys.getLast?.getD 0) w + 1 ∧
        ∃ d₁, Settled crc o clean active x w d₁ ∧ Recovered w d₁ d)
      (fun _ ↦ RecoveryExit crc o clean active x w) (RecoveryExit crc o clean active x w) := by
  have hx : Exits Op.onFiles o (Settled crc o clean active x w) ioError
      (fun _ ↦ RecoveryExit crc o clean active x w)
      (RecoveryExit crc o clean active x w) := ⟨fun _ _ ↦ .of_settled, fun _ ↦ .of_settled⟩
  refine .bind (Io.touch_exits hx fun _ ↦ And.left) fun _ ↦
    .bind (Io.touch_exits hx fun _ ↦ And.left) fun _ ↦
    .bind (Q := fun ids d ↦ (Settled crc o clean active x w d ∧ d.wal = wal) ∧ ids = d.wal.keys)
      (Io.read_exits hx (fun _ ↦ And.left) ?_ ?_) fun ids ↦ .intro ?_
  · exact fun d ids hd hread ↦ ⟨hd, (Except.ok.inj hread).symm⟩
  · exact fun d e _ hread ↦ nomatch hread
  rintro d₁ ⟨⟨hd₁, rfl⟩, rfl⟩
  have hstart : ∀ d, d = d₁ → Settled crc o clean active x w d ∧ d.wal = d₁.wal := by
    rintro d rfl
    exact ⟨hd₁, rfl⟩
  refine .bind (((deleteFlushed_triple fun k hk ↦ (Disk.mem_flushed.1 hk).2).pre hstart).exits
    (fun _ _ ↦ .of_settled) fun _ ↦ .of_settled) fun _ ↦ recoverTail_triple fun d hwal tail ↦
    Disk.getLast?_unflushed.trans ?_
  have hmem : ∀ k, k ∈ d.wal ↔ k ∈ d₁.wal ∧ w < k := fun k ↦
    (hwal k).trans Disk.mem_without_flushed
  constructor
  · exact fun h ↦
      ⟨(hmem tail).2 ⟨h.mem, h.above⟩, h.above, fun k hk ↦ h.highest k ((hmem k).1 hk).1⟩
  · refine fun h ↦ ⟨((hmem tail).1 h.mem).1, h.above, fun k hk ↦ ?_⟩
    by_cases hw : w < k
    · exact h.highest k ((hmem k).2 ⟨hk, hw⟩)
    · exact (not_lt.1 hw).trans h.above.le

/-! ## Opening -/

private theorem reconcileAll_watermark {m m' : Manifest} {series : List SeriesConfig}
    {c changed : Bool} (h : reconcileAll m c series = .ok (m', changed)) :
    m'.lastFlushedSegment = m.lastFlushedSegment := by
  induction series generalizing m c with
  | nil =>
    rw [reconcileAll, Except.ok.injEq, Prod.mk.injEq] at h
    rw [h.1]
  | cons s rest ih =>
    rw [reconcileAll, Except.bind_eq_ok] at h
    obtain ⟨⟨history, c'⟩, -, h⟩ := h
    exact (ih h).trans rfl

theorem Manifest.reconcile_watermark {m m' : Manifest} {config : Config} {changed : Bool}
    (h : m.reconcile config = .ok (m', changed)) :
    m'.lastFlushedSegment = m.lastFlushedSegment := by
  rw [Manifest.reconcile, Except.bind_eq_ok] at h
  obtain ⟨-, -, h⟩ := h
  exact reconcileAll_watermark h

/-- There is output of a flush, published or staged. -/
def Disk.HasOutput (d : Disk) : Prop :=
  ∃ p : Path, (p ∈ d.series ∨ p ∈ d.tmp) ∧ p.length = 3 ∧ (outputRange p).isSome = true

/-- Without a manifest, output is found unless a directory cannot be listed; nothing is changed. -/
theorem requireManifestForOutput_triple {d : Disk} :
    Triple o (· = d) requireManifestForOutput
      (fun _ d' ↦ d' = d ∧ (¬ Failed o .seriesList → ¬ Failed o .tmpList → ¬ d.HasOutput))
      (fun _ d' ↦ d' = d ∧ d.HasOutput) (· = d) := by
  refine .bind outputFiles_triple fun out ↦ .intro ?_
  rintro d ⟨rfl, hout, hallOut⟩
  refine .bind stagedFiles_triple fun staged ↦ .intro ?_
  rintro d ⟨rfl, hstaged, hallStaged⟩
  dsimp only
  have hfound : ∀ p ∈ out.map Prod.fst ++ (staged.filter fun x ↦ x.2.isSome).map Prod.fst,
      (p ∈ d.series ∨ p ∈ d.tmp) ∧ p.length = 3 ∧ (outputRange p).isSome = true := by
    intro p hp
    rcases List.mem_append.1 hp with hp | hp
    · obtain ⟨x, hx, rfl⟩ := List.mem_map.1 hp
      obtain ⟨⟨hmem, hlen⟩, hrange⟩ := hout x hx
      exact ⟨.inl hmem, hlen, by rw [hrange]; rfl⟩
    · obtain ⟨x, hx, rfl⟩ := List.mem_map.1 hp
      obtain ⟨hx, hsome⟩ := List.mem_filter.1 hx
      obtain ⟨⟨hmem, hlen⟩, hrange⟩ := hstaged x hx
      exact ⟨.inr hmem, hlen, hrange ▸ hsome⟩
  split
  next hnil =>
    obtain ⟨hseries, htmp⟩ := List.append_eq_nil_iff.1 hnil
    refine .ret ?_
    rintro d rfl
    refine ⟨rfl, fun hlistSeries hlistTmp ⟨p, hp, hlen, hsome⟩ ↦ ?_⟩
    obtain ⟨r, hr⟩ := Option.isSome_iff_exists.1 hsome
    rcases hp with hp | hp
    · exact List.not_mem_nil (hseries ▸ List.mem_map_of_mem (hallOut hlistSeries p hp hlen r hr))
    · exact List.not_mem_nil (htmp ▸ List.mem_map_of_mem
        (List.mem_filter.2 ⟨hallStaged hlistTmp p hp hlen, hsome⟩))
  next first rest hcons =>
    refine .fail ?_
    rintro d rfl
    exact ⟨rfl, first, hfound first (hcons ▸ List.mem_cons_self)⟩

/-- The manifest is loaded with the watermark on disk, which reconciling keeps. -/
theorem openManifest_triple (config : Config) :
    Triple o (Settled crc o clean active x w) (openManifest config)
      (fun m d ↦ Settled crc o clean active x w d ∧ m.lastFlushedSegment = w)
      (fun _ ↦ Settled crc o clean active x w) (Settled crc o clean active x w) := by
  have hx := Exits.of_keeps Op.onFiles o (Settled crc o clean active x w) ioError
  have hload : Triple o (Settled crc o clean active x w) Manifest.load
      (fun m d ↦ Settled crc o clean active x w d ∧ m.lastFlushedSegment = w)
      (fun _ ↦ Settled crc o clean active x w) (Settled crc o clean active x w) := by
    refine .bind (Io.step_keeps fun d hd ↦ hd.step (.scratch ⟨rfl, rfl, rfl, rfl, rfl, rfl⟩)
      rfl rfl) fun _ ↦ Io.read_exits hx (fun _ ↦ id) (fun d m hd hread ↦ ⟨hd, ?_⟩) fun d _ hd _ ↦ hd
    rw [← hd.watermark, Disk.watermark]
    split at hread
    next hnone => rw [hnone, ← Except.ok.inj hread]
    next m' hwhole => rw [hwhole, ← Except.ok.inj hread]
    next => cases hread
  have hcommit : ∀ m : Manifest, m.lastFlushedSegment = w →
    Triple o (Settled crc o clean active x w)
      (m.commit none) (fun _ ↦ Settled crc o clean active x w)
        (fun _ ↦ Settled crc o clean active x w)
      (Settled crc o clean active x w) := by
    intro m hm
    have hignores : IgnoresStaging (Settled crc o clean active x w) := fun d f hd ↦
      hd.step (.scratch ⟨rfl, rfl, rfl, rfl, rfl, rfl⟩) rfl rfl
    have hrecorded : ∀ d, (∃ d₁, Settled crc o clean active x w d₁ ∧ d = d₁.recorded m none) →
        Settled crc o clean active x w d := by
      rintro d ⟨d₁, hd₁, rfl⟩
      exact ⟨hd₁.reached.step (.recommit (hm.trans hd₁.watermark.symm)), hm, hd₁.tmp⟩
    refine (Manifest.commit_triple hignores m none).conseq (fun _ ↦ id) (fun _ ↦ hrecorded) ?_ ?_
    · rintro - d ⟨-, ⟨hd, -⟩ | ⟨hd, -⟩⟩
      · exact hd
      · exact hrecorded d hd
    · rintro d (hd | hd)
      · exact hd
      · exact hrecorded d hd
  have hrequire : Keeps o (Settled crc o clean active x w) requireManifest := by
    refine .bind (.look _) fun found ↦ ?_
    split_ifs
    · exact .ret ()
    · exact .intro fun d₁ hd₁ ↦ requireManifestForOutput_triple.conseq (fun _ hd ↦ hd)
        (fun _ d hd ↦ hd.1 ▸ hd₁) (fun _ d hd ↦ hd.1 ▸ hd₁) fun d hd ↦ hd ▸ hd₁
  refine .bind hrequire fun _ ↦ .bind hload fun m ↦ .intro ?_
  rintro d₁ ⟨hd₁, hm⟩
  refine .bind (Q := fun r d ↦ Settled crc o clean active x w d ∧ r.1.lastFlushedSegment = w)
    (.ofExcept ?_ ?_) fun r ↦ .intro ?_
  · rintro ⟨m', changed⟩ hrec d rfl
    exact ⟨hd₁, (Manifest.reconcile_watermark hrec).trans hm⟩
  · rintro e - d rfl
    exact hd₁
  obtain ⟨m', changed⟩ := r
  rintro d₂ ⟨hd₂, hm'⟩
  refine .bind (Q := fun _ ↦ Settled crc o clean active x w) ?_ fun _ ↦ .ret fun d hd ↦ ⟨hd, hm'⟩
  rw [Manifest.commitChanged]
  split_ifs
  · exact (hcommit m' hm').pre fun d hd ↦ hd ▸ hd₂
  · exact .ret fun d hd ↦ hd ▸ hd₂

end Programs

end Orc
