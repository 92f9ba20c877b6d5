import Orc.Engine.Published
import Orc.Wal.Durability
import Orc.Wal.TornTail

/-!
# Crash safety of the flush cycle

A flush stages its files, commits the manifest, moves the files to `series/` and deletes the
segments; a start settles what an interrupted flush has left. A crash may come between any two
operations, also of a start. What decides is the watermark on disk: a segment above it has not been
flushed, and a file up to it belongs to a flush that has been committed.

## The invariant

The frames of a segment are followed through a run (`Traced`): they are in `wal/` above the
watermark, or a commit has consumed them. The commits are followed in a ledger (`FlushLedger`):
their segments ascend, every segment still in `wal/` that the watermark covers is among them, and
their files are in `tmp/` or `series/`. Both are kept by every step of a run in which no operation
fails (`flush_cycle_crash_safe`).

The ledger is no part of the engine. A directory alone does not say which flush wrote a file or
whether the frames of a segment that is gone are in one, so that "published once" cannot be said of
a directory; it is said of a directory and the commits that led to it, and the ledger grows by one
entry with each commit and in no other step.

## Crashes and errors

Crashes are allowed everywhere and errors nowhere (`failStop`), and not for convenience. The
watermark in memory runs ahead of the one on disk when a commit fails, and the next flush then
publishes files that no manifest stands for; that case is the subject of `Orc.Engine.Published`.
-/

namespace Orc

open Bytes Fault Order

/-! ## The frames of a segment -/

/-- A segment whose header parses, and the frames delimited behind it. -/
def SegmentFrames (crc : Bytes → UInt32) (b : Bytes) (fs : List Bytes) : Prop :=
  (∃ hid, parseSegmentHeader b = .ok hid) ∧
    ∃ rest, Cut crc b.length (b.drop segmentHeaderBytes) fs rest

/-- Segment `id` is in `wal/`, and its frames begin with `fs`. -/
def Disk.Stores (crc : Bytes → UInt32) (d : Disk) (id : ℕ) (fs : List Bytes) : Prop :=
  ∃ b, d.bytesAt id = some b ∧ ∃ gs, SegmentFrames crc b (fs ++ gs)

/-- The flush has consumed segment `id`, whose frames begin with `fs`. -/
def Commit.Takes (crc : Bytes → UInt32) (c : Commit) (id : ℕ) (fs : List Bytes) : Prop :=
  ∃ b, (id, b) ∈ c.consumed ∧ ∃ gs, SegmentFrames crc b (fs ++ gs)

section Frames

variable {crc : Bytes → UInt32} {b b' : Bytes} {fs gs : List Bytes}

theorem SegmentFrames.of_isPrefix (h : SegmentFrames crc b fs) (hb : b <+: b') :
    ∃ gs, SegmentFrames crc b' (fs ++ gs) := by
  obtain ⟨⟨hid, hheader⟩, rest, hcut⟩ := h
  obtain ⟨x, rfl⟩ := hb
  have hlen := segmentHeaderBytes_le_length hheader
  obtain ⟨gs, rest', hrest⟩ := exists_cut crc (b ++ x).length (rest ++ x)
  refine ⟨gs, ⟨hid, ?_⟩, rest', ?_⟩
  · rw [← parseSegmentHeader_take _ hlen, List.take_append_of_le_length le_rfl,
      parseSegmentHeader_take _ hlen, hheader]
  · rw [List.drop_append_of_le_length hlen, hcut.eq_append, List.append_assoc]
    exact .append (fun f hf ↦ (hcut.isFrame f hf).mono (by simp)) hrest

private theorem segmentFrames_truncate {f : SegFile} {hid : ℕ} {rest : Bytes}
    (hheader : parseSegmentHeader f.bytes = .ok hid)
    (hcut : Cut crc f.bytes.length (f.bytes.drop segmentHeaderBytes) fs rest) :
    SegmentFrames crc (f.truncate (segmentHeaderBytes + fs.flatten.length)).bytes gs ↔
      SegmentFrames crc f.bytes gs := by
  have hwhole := readsWhole_amend hheader hcut
  rw [SegFile.bytes_amend] at hwhole
  have htruncated := cut_segment hwhole.length hwhole.drop hcut.isFrame
  have hparse : parseSegmentHeader (f.bytes.take (segmentHeaderBytes + fs.flatten.length)) =
      .ok hid := by
    rw [parseSegmentHeader_take _ (Nat.le_add_right _ _), hheader]
  constructor
  · rintro ⟨-, rest', hcut'⟩
    obtain ⟨rfl, -⟩ := htruncated.unique hcut'
    exact ⟨⟨hid, hheader⟩, rest, hcut⟩
  · rintro ⟨-, rest', hcut'⟩
    obtain ⟨rfl, -⟩ := hcut.unique hcut'
    exact ⟨⟨hid, hparse⟩, [], htruncated⟩

private theorem not_segmentFrames {e : DecodeError} (h : parseSegmentHeader b = .error e) :
    ¬ SegmentFrames crc b fs := by
  rintro ⟨⟨hid, hheader⟩, -⟩
  cases h.symm.trans hheader

end Frames

section Steps

variable {crc : Bytes → UInt32} {o : Oracle Op} {clean : Prop} {active w w' id : ℕ} {d d' : Disk}
  {fs : List Bytes}

theorem Disk.Stores.mem_wal (h : d.Stores crc id fs) : id ∈ d.wal := by
  obtain ⟨b, hb, -⟩ := h
  exact Disk.mem_iff_bytesAt.2 (Option.isSome_iff_exists.2 ⟨b, hb⟩)

theorem Disk.stores_congr (h : d'.bytesAt id = d.bytesAt id) :
    d'.Stores crc id fs ↔ d.Stores crc id fs := by
  rw [Stores, Stores, h]

theorem Disk.not_stores_erase (hwal : d'.wal = d.wal.erase id) : ¬ d'.Stores crc id fs := by
  rintro ⟨b, hb, -⟩
  rw [Disk.bytesAt_erase hwal, if_pos rfl] at hb
  cases hb

theorem Disk.stores_erase_of_ne {k : ℕ} (hwal : d'.wal = d.wal.erase k) (hk : id ≠ k) :
    d'.Stores crc id fs ↔ d.Stores crc id fs :=
  Disk.stores_congr (by rw [Disk.bytesAt_erase hwal, if_neg hk])

theorem Disk.stores_erase {k : ℕ} {f : SegFile} {e : DecodeError} (hf : d.wal[k]? = some f)
    (hheader : parseSegmentHeader f.bytes = .error e) (hwal : d'.wal = d.wal.erase k) :
    d'.Stores crc id fs ↔ d.Stores crc id fs := by
  by_cases hk : id = k
  · subst hk
    refine iff_of_false (Disk.not_stores_erase hwal) ?_
    rintro ⟨b, hb, gs, hframes⟩
    rw [Disk.bytesAt_of_mem hf, Option.some.injEq] at hb
    exact not_segmentFrames (hb ▸ hheader) hframes
  · exact Disk.stores_erase_of_ne hwal hk

theorem Disk.stores_truncate {k hid : ℕ} {f : SegFile} {gs : List Bytes} {rest : Bytes}
    (hf : d.wal[k]? = some f) (hheader : parseSegmentHeader f.bytes = .ok hid)
    (hcut : Cut crc f.bytes.length (f.bytes.drop segmentHeaderBytes) gs rest) :
    (d.onSegment k (SegFile.truncate (segmentHeaderBytes + gs.flatten.length))).Stores crc id fs ↔
      d.Stores crc id fs := by
  by_cases hk : id = k
  · subst hk
    simp only [Disk.Stores, Disk.bytesAt_onSegment, if_pos, hf, Disk.bytesAt_of_mem hf,
      Option.map_some, Option.some.injEq, exists_eq_left', segmentFrames_truncate hheader hcut]
  · exact Disk.stores_congr (by rw [Disk.bytesAt_onSegment, if_neg hk])

/-- **What an effect does to the frames in `wal/`**: nothing, or it deletes a segment that the
watermark covers. -/
theorem WalEffect.stores_cases (h : WalEffect crc active w d d') (id : ℕ) (fs : List Bytes) :
    (d'.Stores crc id fs ↔ d.Stores crc id fs) ∨ id ≤ d.watermark ∧ ¬ d'.Stores crc id fs := by
  cases h with
  | same hbytes => exact .inl (Disk.stores_congr (congrFun hbytes id))
  | setAside hf hheader _ _ heq => exact .inl (Disk.stores_erase hf hheader (heq ▸ rfl))
  | @delete k hk heq =>
    have hwal : d'.wal = d.wal.erase k := heq ▸ rfl
    by_cases hid : id = k
    · subst hid
      exact .inr ⟨hk, Disk.not_stores_erase hwal⟩
    · exact .inl (Disk.stores_erase_of_ne hwal hid)
  | truncate hf hheader hcut heq => exact .inl (heq ▸ Disk.stores_truncate hf hheader hcut)

theorem Log.Shifts.stores {s : Site} {log : Log} (h : s.wal.Shifts log)
    (hstores : s.disk.Stores crc id fs) : (s.setWal log).disk.Stores crc id fs := by
  obtain ⟨b, hb, gs, hframes⟩ := hstores
  obtain ⟨b', hb', hprefix⟩ := h.bytes hb
  obtain ⟨gs', hframes'⟩ := hframes.of_isPrefix hprefix
  exact ⟨b', hb', gs ++ gs', List.append_assoc fs gs gs' ▸ hframes'⟩

theorem Log.Shifts.stores_iff {s : Site} {log : Log} (h : s.wal.Shifts log) (hs : Sound (w, s))
    (hid : id ≤ w) : (s.setWal log).disk.Stores crc id fs ↔ s.disk.Stores crc id fs := by
  refine Disk.stores_congr (h.keepsSealed fun a ha ↦ ?_).2
  exact hid.trans_lt (hs.live a ha).1

theorem Recovered.stores_iff (h : Recovered w d d') : d'.Stores crc id fs ↔ d.Stores crc id fs := by
  cases h with
  | kept => exact Iff.rfl
  | dropped _ hf hheader => exact Disk.stores_erase hf hheader rfl
  | setAside _ hf hheader => exact Disk.stores_erase hf hheader rfl

/-- What a start does to the directory when recovery comes to the tail. -/
structure Disk.Resumed (crc : Bytes → UInt32) (d d' : Disk) : Prop where
  tmp : d'.tmp = d.tmp
  series : d'.series = d.series
  commits : d'.commits = d.commits
  watermark : d'.watermark = d.watermark
  stores : ∀ id ≤ d.top, ∀ fs, d'.Stores crc id fs ↔ d.Stores crc id fs

theorem Recovered.resumed (h : Recovered w d d') : d.Resumed crc d' := by
  refine ⟨h.tmp, ?_, ?_, h.watermark, fun id _ fs ↦ h.stores_iff⟩
  · cases h <;> rfl
  · cases h <;> rfl

theorem Disk.Resumed.withSegment (h : d.Resumed crc d') (n k : ℕ) :
    d.Resumed crc (d'.withSegment (d.top + 1) n k) := by
  refine ⟨h.tmp, h.series, h.commits, h.watermark, fun id hid fs ↦ (Disk.stores_congr ?_).trans
    (h.stores id hid fs)⟩
  rw [Disk.bytesAt, Disk.withSegment, getElem?_insert_of_ne (Nat.lt_succ_of_le hid).ne',
    Disk.bytesAt]

theorem Begins.resumed {y : ℕ × Site} (h : Begins o d y) :
    d.Resumed crc y.2.disk ∧ y.1 = d.watermark := by
  cases h with
  | failed => exact ⟨⟨rfl, rfl, rfl, rfl, fun _ _ _ ↦ Iff.rfl⟩, rfl⟩
  | interrupted h => exact ⟨h.resumed, h.watermark⟩
  | created h => exact ⟨h.resumed.withSegment _ _, h.watermark⟩
  | opened h => exact ⟨h.resumed.withSegment _ _, rfl⟩

/-! ## The files of a flush -/

/-- The file is in `series/`, and no other is about to be moved over it. -/
def Disk.Promoted (d : Disk) (p : Path) (f : Parquet) : Prop :=
  d.tmp[p]? = none ∧ d.series[p]? = some f

/-- The file is in `tmp/` or has been moved to `series/`. -/
def Disk.HasFile (d : Disk) (p : Path) (f : Parquet) : Prop :=
  d.tmp[p]? = some f ∨ d.Promoted p f

theorem IsOutput.outputRange_eq {last : ℕ} {p : Path} (h : IsOutput last p) (h64 : last ≤ u64Max) :
    ∃ r, outputRange p = some r ∧ r.2.1 = last := by
  obtain ⟨series, hour, first, epoch, hle, rfl⟩ := h
  refine ⟨(first, last, epoch), ?_, rfl⟩
  simp only [outputRange, List.getLast?_cons_cons, List.getLast?_singleton, Option.bind_some]
  exact parseOutputFileName_outputFileName epoch (hle.trans h64) h64

theorem IsOutput.length_eq {last : ℕ} {p : Path} (h : IsOutput last p) : p.length = 3 := by
  obtain ⟨series, hour, first, epoch, -, rfl⟩ := h
  rfl

/-- **What an effect does to a file that the watermark covers**: nothing, or it moves it from `tmp/`
to `series/`. The file's name says which segments it holds, so the sweep takes it for what it is,
and no later flush writes to its path. -/
theorem Effect.output_cases (h : Effect crc o clean active (w, d) (w', d')) {last : ℕ} {p : Path}
    (hp : IsOutput last p) (hlast : last ≤ w) (h64 : last ≤ u64Max) :
    (d'.tmp[p]? = d.tmp[p]? ∧ d'.series[p]? = d.series[p]?) ∨
      ∃ f, d.tmp[p]? = some f ∧ d'.Promoted p f := by
  obtain ⟨r, hr, hrlast⟩ := hp.outputRange_eq h64
  cases h with
  | scratch hd => exact .inl ⟨by rw [hd.tmp], by rw [hd.series]⟩
  | @stage _ last' _ q f hq habove =>
    have hne : q ≠ p := by
      rintro rfl
      have := hq.last_eq hr
      omega
    exact .inl ⟨getElem?_insert_of_ne hne, rfl⟩
  | @promote _ _ q f hf =>
    by_cases hq : q = p
    · subst hq
      exact .inr ⟨f, hf, Std.ExtTreeMap.getElem?_erase_self, Std.ExtTreeMap.getElem?_insert_self⟩
    · exact .inl ⟨getElem?_erase_of_ne hq, getElem?_insert_of_ne hq⟩
  | @discard _ _ q hq =>
    have hne : q ≠ p := by
      rintro rfl
      have := hq r hr
      omega
    exact .inl ⟨getElem?_erase_of_ne hne, rfl⟩
  | @discardFlat _ _ q hq =>
    have hne : q ≠ p := by
      rintro rfl
      have := hp.length_eq
      omega
    exact .inl ⟨getElem?_erase_of_ne hne, rfl⟩
  | @discardOutput _ _ q r' hr' habove =>
    have hne : q ≠ p := by
      rintro rfl
      have := hp.last_eq hr'
      omega
    exact .inl ⟨rfl, getElem?_erase_of_ne hne⟩
  | _ => exact .inl ⟨rfl, rfl⟩

theorem Disk.Promoted.effect {p : Path} {f : Parquet} (h : d.Promoted p f)
    (heffect : Effect crc o clean active (w, d) (w', d')) {last : ℕ} (hp : IsOutput last p)
    (hlast : last ≤ w) (h64 : last ≤ u64Max) : d'.Promoted p f := by
  rcases heffect.output_cases hp hlast h64 with ⟨htmp, hseries⟩ | ⟨g, hg, -⟩
  · exact ⟨htmp.trans h.1, hseries.trans h.2⟩
  · exact absurd (h.1.symm.trans hg) nofun

theorem Disk.HasFile.effect {p : Path} {f : Parquet} (h : d.HasFile p f)
    (heffect : Effect crc o clean active (w, d) (w', d')) {last : ℕ} (hp : IsOutput last p)
    (hlast : last ≤ w) (h64 : last ≤ u64Max) : d'.HasFile p f := by
  rcases h with hf | hpromoted
  · rcases heffect.output_cases hp hlast h64 with ⟨htmp, -⟩ | ⟨g, hg, hpromoted⟩
    · exact .inl (htmp.trans hf)
    · obtain rfl := Option.some.inj (hf.symm.trans hg)
      exact .inr hpromoted
  · exact .inr (hpromoted.effect heffect hp hlast h64)

/-! ## The ledger -/

/-- What the flushes committed so far have consumed and produced, against the directory. -/
structure FlushLedger (crc : Bytes → UInt32) (x : ℕ × Site) : Prop where
  watermark : x.2.disk.watermark = x.1
  below : ∀ c ∈ x.2.disk.commits, ∀ e ∈ c.consumed, e.1 ≤ x.1
  ascending : x.2.disk.commits.Pairwise fun c c' ↦ ∀ e ∈ c.consumed, ∀ e' ∈ c'.consumed, e.1 < e'.1
  /-- A segment that the watermark covers and that is still there has been consumed. -/
  covers : ∀ id fs, x.2.disk.Stores crc id fs → id ≤ x.1 → ∃ c ∈ x.2.disk.commits, c.Takes crc id fs
  files : ∀ c ∈ x.2.disk.commits, ∀ e ∈ c.files, e.2.complete = true ∧
    ∃ last ≤ x.1, IsOutput last e.1 ∧ (last ≤ u64Max → x.2.disk.HasFile e.1 e.2)

/-- The frames `fs` of segment `id` are in `wal/` above the watermark, or have been consumed. -/
def Traced (crc : Bytes → UInt32) (id : ℕ) (fs : List Bytes) (x : ℕ × Site) : Prop :=
  (x.1 < id ∧ x.2.disk.Stores crc id fs) ∨ ∃ c ∈ x.2.disk.commits, c.Takes crc id fs

theorem FlushLedger.traced {x : ℕ × Site} (h : FlushLedger crc x)
    (hstores : x.2.disk.Stores crc id fs) :
    Traced crc id fs x := by
  by_cases hid : id ≤ x.1
  · exact .inr (h.covers id fs hstores hid)
  · exact .inl ⟨not_le.1 hid, hstores⟩

/-- The two kinds of effects: those that leave the record of flushes and the watermark alone, and
commits. -/
theorem Effect.commit_cases (h : Effect crc o clean active (w, d) (w', d')) (ho : ¬ CommitFails o) :
    (w' = w ∧ d'.commits = d.commits) ∨ ∃ (plan : Plan) (m : Manifest),
      plan.Ready clean active w d ∧
      w' = max w plan.last ∧ d' = d.recorded m (some (plan.ids, plan.staged)) := by
  cases h with
  | scratch hd => exact .inl ⟨rfl, hd.commits⟩
  | commit hready => exact .inr ⟨_, _, hready, rfl, rfl⟩
  | advance _ hfails => exact absurd hfails ho
  | recommit => exact .inl ⟨rfl, List.append_nil _⟩
  | _ => exact .inl ⟨rfl, rfl⟩

/-- What a commit puts on record: all segments that the flush consumes and all files that it has
staged. -/
structure Plan.Records (crc : Bytes → UInt32) (w : ℕ) (plan : Plan) (d : Disk) (c : Commit) :
    Prop where
  ids : c.consumed.map Prod.fst = plan.ids
  paths : c.files.map Prod.fst = plan.staged
  above : ∀ e ∈ c.consumed, w < e.1 ∧ e.1 ≤ plan.last
  takes : ∀ id fs, d.Stores crc id fs → w < id → id ≤ plan.last → c.Takes crc id fs
  files : ∀ e ∈ c.files, e.2.complete = true ∧ IsOutput plan.last e.1 ∧ d.tmp[e.1]? = some e.2

private theorem map_fst_filterMap {α β : Type} {l : List α} {get : α → Option β}
    (h : ∀ a ∈ l, (get a).isSome = true) :
    (l.filterMap fun a ↦ (get a).map fun b ↦ (a, b)).map Prod.fst = l := by
  induction l with
  | nil => rfl
  | cons a l ih =>
    rw [List.forall_mem_cons] at h
    obtain ⟨b, hb⟩ := Option.isSome_iff_exists.1 h.1
    rw [List.filterMap_cons_some (by rw [hb, Option.map_some]), List.map_cons, ih h.2]

theorem Plan.Ready.records {plan : Plan} (h : plan.Ready clean active w d) :
    plan.Records crc w d (d.commitOf plan.ids plan.staged) := by
  obtain ⟨hmem, hmax⟩ := (getLast?_eq_some_iff h.consumes.sorted).1 h.last
  have hids : (d.commitOf plan.ids plan.staged).consumed.map Prod.fst = plan.ids := by
    have hread : ∀ id ∈ plan.ids, (d.bytesAt id).isSome = true := fun id hid ↦
      Disk.mem_iff_bytesAt.1 (h.consumes.there id hid)
    conv_rhs => rw [← map_fst_filterMap hread]
    simp only [Disk.commitOf, Disk.bytesAt, Option.map_map, Function.comp_def]
  refine ⟨hids, map_fst_filterMap fun p hp ↦ ?_, fun e he ↦ ?_, fun id fs hstores hw hle ↦ ?_,
    fun e he ↦ ?_⟩
  · obtain ⟨f, hf, -⟩ := (h.staged p hp).1
    exact Option.isSome_iff_exists.2 ⟨f, hf⟩
  · have hid : e.1 ∈ plan.ids := hids ▸ List.mem_map_of_mem he
    exact ⟨h.consumes.above e.1 hid, hmax e.1 hid⟩
  · -- the flush passes over no segment up to its last one
    have hid : id ∈ plan.ids :=
      (h.consumes.passed id hstores.mem_wal hw).resolve_right fun hall ↦ (hall _ hmem).not_ge hle
    obtain ⟨b, hb, hframes⟩ := hstores
    obtain ⟨f, hf, rfl⟩ := Option.map_eq_some_iff.1 hb
    exact ⟨f.bytes, List.mem_filterMap.2 ⟨id, hid, by rw [hf, Option.map_some]⟩, hframes⟩
  · obtain ⟨p, hp, he⟩ := List.mem_filterMap.1 he
    obtain ⟨f, hf, rfl⟩ := Option.map_eq_some_iff.1 he
    obtain ⟨⟨g, hg, hcomplete⟩, houtput⟩ := h.staged p hp
    obtain rfl := Option.some.inj (hf.symm.trans hg)
    exact ⟨hcomplete, houtput, hf⟩

theorem FlushLedger.commit {s : Site} {plan : Plan} {m : Manifest} (h : FlushLedger crc (w, s))
    (hready : plan.Ready clean active w s.disk)
    (hw : (s.disk.recorded m (some (plan.ids, plan.staged))).watermark = max w plan.last) :
    FlushLedger crc (max w plan.last,
      { s with disk := s.disk.recorded m (some (plan.ids, plan.staged)) }) := by
  have hrecords : plan.Records crc w s.disk _ := hready.records
  have hmem : ∀ {c}, c ∈ s.disk.commits ++ [s.disk.commitOf plan.ids plan.staged] →
      c ∈ s.disk.commits ∨ c = s.disk.commitOf plan.ids plan.staged := fun hc ↦
    (List.mem_append.1 hc).imp_right List.mem_singleton.1
  refine ⟨hw, fun c hc e he ↦ ?_, ?_, fun id fs hstores hid ↦ ?_, fun c hc e he ↦ ?_⟩
  · rcases hmem hc with hc | rfl
    · exact (h.below c hc e he).trans (le_max_left _ _)
    · exact (hrecords.above e he).2.trans (le_max_right _ _)
  · refine List.pairwise_append.2 ⟨h.ascending, List.pairwise_singleton _ _, fun c hc c' hc' ↦ ?_⟩
    intro e he e' he'
    rw [List.mem_singleton.1 hc'] at he'
    exact (h.below c hc e he).trans_lt (hrecords.above e' he').1
  · by_cases hold : id ≤ w
    · obtain ⟨c, hc, htakes⟩ := h.covers id fs hstores hold
      exact ⟨c, List.mem_append_left _ hc, htakes⟩
    · have hle : id ≤ plan.last := (le_max_iff.1 hid).resolve_left hold
      exact ⟨_, List.mem_append_right _ (List.mem_singleton_self _),
        hrecords.takes id fs hstores (not_le.1 hold) hle⟩
  · rcases hmem hc with hc | rfl
    · obtain ⟨hcomplete, last, hlast, houtput, hfile⟩ := h.files c hc e he
      exact ⟨hcomplete, last, hlast.trans (le_max_left _ _), houtput, hfile⟩
    · obtain ⟨hcomplete, houtput, hfile⟩ := hrecords.files e he
      exact ⟨hcomplete, plan.last, le_max_right _ _, houtput, fun _ ↦ .inl hfile⟩

/-- Where nothing is committed, the ledger is kept with the segments that it covers and its
files. -/
theorem FlushLedger.of_commits {s : Site} {y : ℕ × Site} (h : FlushLedger crc (w, s))
    (hw : y.2.disk.watermark = y.1) (hle : y.1 = w) (hcommits : y.2.disk.commits = s.disk.commits)
    (hstores : ∀ id fs, id ≤ w → y.2.disk.Stores crc id fs → s.disk.Stores crc id fs)
    (hfiles : ∀ last ≤ w, ∀ p f, IsOutput last p → last ≤ u64Max → s.disk.HasFile p f →
      y.2.disk.HasFile p f) : FlushLedger crc y := by
  obtain ⟨w₁, s₁⟩ := y
  obtain rfl : w₁ = w := hle
  refine ⟨hw, ?_, ?_, fun id fs hthere hid ↦ ?_, ?_⟩
  · rw [hcommits]
    exact h.below
  · rw [hcommits]
    exact h.ascending
  · rw [hcommits]
    exact h.covers id fs (hstores id fs hid hthere) hid
  · rw [hcommits]
    intro c hc e he
    obtain ⟨hcomplete, last, hlast, houtput, hfile⟩ := h.files c hc e he
    exact ⟨hcomplete, last, hlast, houtput, fun h64 ↦
      hfiles last hlast e.1 e.2 houtput h64 (hfile h64)⟩

theorem FlushLedger.move {x y : ℕ × Site} (h : FlushLedger crc x) (hs : Sound x)
    (ho : ¬ CommitFails o) (hmove : Move crc o clean x y) : FlushLedger crc y := by
  cases hmove with
  | @disk w w' s d heffect =>
    have hw := heffect.watermark (.inl ho) h.watermark
    rcases heffect.commit_cases ho with ⟨rfl, hcommits⟩ | ⟨plan, m, hready, rfl, rfl⟩
    · refine h.of_commits hw rfl hcommits (fun id fs _ hthere ↦ ?_)
        fun last hlast p f hp h64 hf ↦ ?_
      · rcases heffect.onWal.stores_cases id fs with hiff | ⟨-, hnot⟩
        · exact hiff.1 hthere
        · exact absurd hthere hnot
      · exact hf.effect heffect hp hlast h64
    · exact h.commit hready hw
  | log hchange =>
    exact h.of_commits h.watermark rfl rfl (fun id fs hid ↦ (hchange.shifts.stores_iff hs hid).1)
      fun _ _ _ _ _ _ hf ↦ hf

theorem FlushLedger.stop {s : Site} {log : Log} (h : FlushLedger crc (w, s)) (hs : Sound (w, s))
    (hstop : Stop s.wal log) : FlushLedger crc (halted (s.setWal log).disk) :=
  h.of_commits rfl h.watermark rfl (fun _ _ hid ↦ (hstop.shifts.stores_iff hs hid).1)
    fun _ _ _ _ _ _ hf ↦ hf

theorem FlushLedger.begins {y : ℕ × Site} (h : FlushLedger crc (halted d))
    (hbegins : Begins o d y) : FlushLedger crc y := by
  obtain ⟨hresumed, hw⟩ : d.Resumed crc y.2.disk ∧ _ := hbegins.resumed
  refine h.of_commits (hresumed.watermark.trans hw.symm) hw hresumed.commits
    (fun id fs hid ↦ (hresumed.stores id (hid.trans Disk.watermark_le_top) fs).1)
    fun last _ p f _ _ hf ↦ ?_
  rw [Disk.HasFile, Disk.Promoted, hresumed.tmp, hresumed.series]
  exact hf

theorem FlushLedger.turn {start : Prop} {x z : ℕ × Site} (h : FlushLedger crc x) (hs : Sound x)
    (ho : ¬ CommitFails o) (hturn : Turn crc o clean start x z) : FlushLedger crc z :=
  (hturn.keeps (fun _ _ hs h hmove ↦ h.move hs ho hmove) (fun _ _ _ hs h hstop ↦ h.stop hs hstop)
    (fun _ _ _ _ _ _ h hbegins ↦ h.begins hbegins) hs h).2

/-! ## Following frames -/

theorem Traced.effect {s : Site} (h : Traced crc id fs (w, s)) (hw : s.disk.watermark = w)
    (ho : ¬ CommitFails o) (heffect : Effect crc o clean active (w, s.disk) (w', d)) :
    Traced crc id fs (w', { s with disk := d }) := by
  rcases heffect.commit_cases ho with ⟨rfl, hcommits⟩ | ⟨plan, m, hready, rfl, rfl⟩
  · refine h.imp (fun ⟨hid, hstores⟩ ↦ ⟨hid, ?_⟩) fun ⟨c, hc, htakes⟩ ↦ ⟨c, hcommits ▸ hc, htakes⟩
    rcases heffect.onWal.stores_cases id fs with hiff | ⟨hle, -⟩
    · exact hiff.2 hstores
    · exact absurd hid (not_lt.2 (hle.trans_eq hw))
  · rcases h with ⟨hid, hstores⟩ | ⟨c, hc, htakes⟩
    · by_cases hle : id ≤ plan.last
      · exact .inr ⟨_, List.mem_append_right _ (List.mem_singleton_self _),
          hready.records.takes id fs hstores hid hle⟩
      · exact .inl ⟨max_lt hid (not_le.1 hle), hstores⟩
    · exact .inr ⟨c, List.mem_append_left _ hc, htakes⟩

theorem Traced.shifts {s : Site} {log : Log} (h : Traced crc id fs (w, s))
    (hshifts : s.wal.Shifts log) : Traced crc id fs (w, s.setWal log) :=
  h.imp_left fun ⟨hid, hstores⟩ ↦ ⟨hid, hshifts.stores hstores⟩

theorem Traced.begins {y : ℕ × Site} (h : Traced crc id fs (halted d)) (hbegins : Begins o d y) :
    Traced crc id fs y := by
  obtain ⟨hresumed, hw⟩ : d.Resumed crc y.2.disk ∧ _ := hbegins.resumed
  refine h.imp (fun ⟨hid, hstores⟩ ↦ ⟨hw.trans_lt hid, ?_⟩) fun ⟨c, hc, htakes⟩ ↦
    ⟨c, hresumed.commits ▸ hc, htakes⟩
  exact (hresumed.stores id (Disk.le_top hstores.mem_wal) fs).2 hstores

/-- **An event** loses no frames. -/
theorem Traced.turn {start : Prop} {x z : ℕ × Site} (h : Traced crc id fs x) (hs : Sound x)
    (hw : x.2.disk.watermark = x.1) (ho : ¬ CommitFails o) (hturn : Turn crc o clean start x z) :
    Traced crc id fs z := by
  refine (hturn.keeps (I := fun x ↦ x.2.disk.watermark = x.1 ∧ Traced crc id fs x)
    (fun x y _ hx hmove ↦ ?_) (fun w s log _ hx hstop ↦ ⟨rfl, ?_⟩)
    (fun _ _ d y _ _ hx hbegins ↦ ⟨?_, hx.2.begins hbegins⟩) hs ⟨hw, h⟩).2.2
  · cases hmove with
    | disk heffect => exact ⟨heffect.watermark (.inl ho) hx.1, hx.2.effect hx.1 ho heffect⟩
    | log hchange => exact ⟨hx.1, hx.2.shifts hchange.shifts⟩
  · obtain rfl : s.disk.watermark = w := hx.1
    exact hx.2.shifts hstop.shifts
  · obtain ⟨hresumed, hy⟩ : d.Resumed crc y.2.disk ∧ _ := hbegins.resumed
    exact hresumed.watermark.trans hy.symm

/-! ## Opening -/

section Opening

variable {last : ℕ} {p : Path} {f : Parquet}

theorem Effect.le (h : Effect crc o clean active (w, d) (w', d')) : w ≤ w' := by
  cases h with
  | commit => exact le_max_left _ _
  | advance => exact le_max_left _ _
  | _ => exact le_rfl

theorem Moves.hasFile {x y : ℕ × Site} (h : Moves crc o clean x y) (hs : Sound x)
    (hp : IsOutput last p) (h64 : last ≤ u64Max) (hlast : last ≤ x.1) (hf : x.2.disk.HasFile p f) :
    y.2.disk.HasFile p f := by
  refine (h.keeps (I := fun x ↦ last ≤ x.1 ∧ x.2.disk.HasFile p f) (fun x y _ hx hmove ↦ ?_) hs
    ⟨hlast, hf⟩).2.2
  cases hmove with
  | disk heffect => exact ⟨hx.1.trans heffect.le, hx.2.effect heffect hp hx.1 h64⟩
  | log => exact hx

/-- A file of a flush up to `last` that is in `series/` for good. -/
structure Shown (last : ℕ) (p : Path) (f : Parquet) (x : ℕ × Site) : Prop where
  watermark : x.2.disk.watermark = x.1
  covered : last ≤ x.1
  promoted : x.2.disk.Promoted p f

theorem Shown.move {x y : ℕ × Site} (h : Shown last p f x) (ho : ¬ CommitFails o)
    (hp : IsOutput last p) (h64 : last ≤ u64Max) (hmove : Move crc o clean x y) :
    Shown last p f y := by
  cases hmove with
  | disk heffect =>
    exact ⟨heffect.watermark (.inl ho) h.watermark, h.covered.trans heffect.le,
      h.promoted.effect heffect hp h.covered h64⟩
  | log => exact ⟨h.watermark, h.covered, h.promoted⟩

theorem Shown.begins {y : ℕ × Site} (h : Shown last p f (halted d)) (hbegins : Begins o d y) :
    Shown last p f y := by
  obtain ⟨hresumed, hw⟩ : d.Resumed (fun _ ↦ 0) y.2.disk ∧ _ := hbegins.resumed
  refine ⟨hresumed.watermark.trans hw.symm, h.covered.trans_eq hw.symm, ?_⟩
  rw [Disk.Promoted, hresumed.tmp, hresumed.series]
  exact h.promoted

theorem Shown.turn {start : Prop} {x z : ℕ × Site} (h : Shown last p f x) (hs : Sound x)
    (ho : ¬ CommitFails o) (hp : IsOutput last p) (h64 : last ≤ u64Max)
    (hturn : Turn crc o clean start x z) : Shown last p f z := by
  refine (hturn.keeps (fun _ _ _ h hmove ↦ h.move ho hp h64 hmove)
    (fun w s log _ h _ ↦ ⟨rfl, ?_, h.promoted⟩) (fun _ _ _ _ _ _ h hbegins ↦
      h.begins hbegins) hs h).2
  obtain rfl : s.disk.watermark = w := h.watermark
  exact h.covered

/-- **An open** has moved to `series/` what was committed before it: its sweep has left nothing of
the current layout in `tmp/`. -/
theorem Opens.shown {d₁ : Disk} {y : ℕ × Site} (h : Opens crc o clean d d₁ d' y)
    (ho : ¬ CommitFails o) (hlist : ¬ Failed o .tmpList) (hp : IsOutput last p)
    (h64 : last ≤ u64Max) (hlast : last ≤ d.watermark) (hf : d.HasFile p f) : Shown last p f y := by
  have hswept : d₁.tmp[p]? = none :=
    Std.ExtTreeMap.getElem?_eq_none fun hmem ↦ h.arrives.swept hlist p hmem hp.length_eq
  have hpromoted : d₁.Promoted p f :=
    (h.arrives.moves.hasFile (sound_down d) hp h64 hlast hf).resolve_left fun hthere ↦
      absurd (hswept.symm.trans hthere) nofun
  have hshown : Shown last p f (halted d₁) :=
    ⟨rfl, hlast.trans_eq h.arrives.watermark.symm, hpromoted⟩
  have hbegins : Begins o d₁ _ := .opened h.recovered
  exact (h.moves.keeps (fun _ _ _ h hmove ↦ h.move ho hp h64 hmove) hbegins.sound
    (hshown.begins hbegins)).2

theorem Node.opens_of_start {lower : String → String} {n : Node} {config : Config} {now : ℕ}
    {process : Process} (hnone : n.process = none) (htidy : n.Tidy False)
    (hprocess : (n.after crc lower o (.start config now)).process = some process) :
    ∃ d₁ d', Opens crc o False n.site.disk d₁ d'
      (n.after crc lower o (.start config now)).view := by
  have hsite : n.site = ⟨n.site.disk, {}⟩ :=
    congrArg Prod.snd (Node.view_of_none hnone htidy)
  have htriple := openEngine_triple (o := o) crc lower config now (d := n.site.disk) False.elim
    False.elim
  rw [← hsite] at htriple
  revert hprocess
  unfold Node.after
  rw [hnone]
  refine Node.settle_of_triple (R := fun n' ↦ n'.process = some process →
    ∃ d₁ d', Opens crc o False n.site.disk d₁ d' n'.view) htriple ?_ ?_ ?_
  · rintro p s ⟨hopens, -⟩ -
    exact hopens
  · exact fun _ _ _ ↦ nofun
  · exact fun _ _ ↦ nofun

end Opening

end Steps

/-! ## Runs -/

section Runs

variable {crc : Bytes → UInt32} {lower : String → String} {n n' : Node}

/-- No operation returns an error; a crash may come anywhere. -/
def failStop : Node → Oracle Op → Event → Prop := fun _ o _ ↦ ¬ Fails o

theorem CommitFails.fails {o : Oracle Op} (h : CommitFails o) : Fails o := by
  rcases h with ⟨t, n, h⟩ | ⟨t, n, h⟩ | ⟨t, n, h⟩ | ⟨t, n, h⟩
  all_goals exact ⟨t, _, n, h⟩

private theorem ledger_empty : FlushLedger crc (halted {}) := by
  have hnone : ∀ id fs, ¬ ({} : Disk).Stores crc id fs := by
    rintro id fs ⟨b, hb, -⟩
    simp [Disk.bytesAt] at hb
  have hfiles : ∀ c ∈ ([] : List Commit), False := fun _ ↦ List.not_mem_nil
  exact ⟨rfl, fun c hc ↦ (hfiles c hc).elim, .nil, fun id fs h ↦ absurd h (hnone id fs),
    fun c hc ↦ (hfiles c hc).elim⟩

/-- What holds of every node of a run. -/
structure Node.Kept (crc : Bytes → UInt32) (n : Node) : Prop where
  sound : Sound n.view
  tidy : n.Tidy False
  ledger : FlushLedger crc n.view

theorem Node.Reaches.kept (h : Node.Reaches crc lower failStop n n') (hn : n.Kept crc) :
    n'.Kept crc := by
  obtain ⟨hsound, htidy, hledger⟩ := h.keeps False (I := FlushLedger crc) (fun _ _ _ _ ↦ False.elim)
    (fun n o e ho hsound _ hledger hturn ↦ hledger.turn hsound (mt CommitFails.fails ho) hturn)
    hn.sound hn.tidy hn.ledger
  exact ⟨hsound, htidy, hledger⟩

theorem Node.kept_empty : (Node.down {}).Kept crc :=
  ⟨sound_down {}, Node.tidy_down False.elim, ledger_empty⟩

theorem Node.Reaches.traced (h : Node.Reaches crc lower failStop n n') (hn : n.Kept crc) {id : ℕ}
    {fs : List Bytes} (hid : n.site.disk.Stores crc id fs) : Traced crc id fs n'.view := by
  refine (h.keeps False (I := fun x ↦ FlushLedger crc x ∧ Traced crc id fs x)
    (fun _ _ _ _ ↦ False.elim)
    (fun n o e ho hsound _ hx hturn ↦ ?_) hn.sound hn.tidy ⟨hn.ledger, hn.ledger.traced hid⟩).2.2.2
  have hcommits := mt CommitFails.fails ho
  exact ⟨hx.1.turn hsound hcommits hturn, hx.2.turn hsound hx.1.watermark hcommits hturn⟩

theorem Node.Reaches.shown (h : Node.Reaches crc lower failStop n n') (hn : n.Kept crc) {last : ℕ}
    {p : Path} {f : Parquet} (hp : IsOutput last p) (h64 : last ≤ u64Max)
    (hshown : Shown last p f n.view) : Shown last p f n'.view :=
  (h.keeps False (fun _ _ _ _ ↦ False.elim) (fun _ _ _ ho hsound _ hx hturn ↦
    hx.turn hsound (mt CommitFails.fails ho) hp h64 hturn) hn.sound hn.tidy hshown).2.2

theorem FlushLedger.index_unique {x : ℕ × Site} (h : FlushLedger crc x) {i j id : ℕ} {c c' : Commit}
    {b b' : Bytes} (hi : x.2.disk.commits[i]? = some c) (hj : x.2.disk.commits[j]? = some c')
    (hb : (id, b) ∈ c.consumed) (hb' : (id, b') ∈ c'.consumed) : i = j := by
  obtain ⟨hilt, rfl⟩ := List.getElem?_eq_some_iff.1 hi
  obtain ⟨hjlt, rfl⟩ := List.getElem?_eq_some_iff.1 hj
  have hascending := List.pairwise_iff_getElem.1 h.ascending
  rcases lt_trichotomy i j with hlt | heq | hlt
  · exact absurd (hascending i j hilt hjlt hlt _ hb _ hb') (lt_irrefl _)
  · exact heq
  · exact absurd (hascending j i hjlt hilt hlt _ hb' _ hb) (lt_irrefl _)

theorem FlushLedger.exists_unique_takes {x : ℕ × Site} (h : FlushLedger crc x) {id : ℕ}
    {fs : List Bytes}
    (htaken : ∃ c ∈ x.2.disk.commits, c.Takes crc id fs) :
    ∃! i : ℕ, ∃ c : Commit, x.2.disk.commits[i]? = some c ∧ c.Takes crc id fs := by
  obtain ⟨c, hc, htakes⟩ := htaken
  obtain ⟨i, hi⟩ := List.mem_iff_getElem?.1 hc
  refine ⟨i, ⟨c, hi, htakes⟩, ?_⟩
  rintro j ⟨c', hj, b', hb', -⟩
  obtain ⟨b, hb, -⟩ := htakes
  exact h.index_unique hj hi hb' hb

theorem Node.Kept.shown_of_start {o : Oracle Op} {config : Config} {now : ℕ} (h : n.Kept crc)
    (hnone : n.process = none) (ho : ¬ Fails o)
    (hopen : (n.after crc lower o (.start config now)).process.isSome = true) {last : ℕ} {p : Path}
    {f : Parquet} (hp : IsOutput last p) (h64 : last ≤ u64Max) (hlast : last ≤ n.view.1)
    (hf : n.site.disk.HasFile p f) :
    Shown last p f (n.after crc lower o (.start config now)).view := by
  obtain ⟨process, hprocess⟩ := Option.isSome_iff_exists.1 hopen
  obtain ⟨d₁, d', hopens⟩ := Node.opens_of_start hnone h.tidy hprocess
  refine hopens.shown (mt CommitFails.fails ho) ?_ hp h64
    (hlast.trans_eq h.ledger.watermark.symm) hf
  rintro ⟨t, k, hfails⟩
  exact ho ⟨t, _, k, hfails⟩

end Runs

/-- **Crash safety of the flush cycle.** From an empty directory, over any appends, seals, flushes,
kills and starts in which no operation returns an error, and with a crash at any operation of any of
them: let `n` be a node reached and `n'` one reached later, perhaps `n` itself. The frames of every
segment of `n` whose header parses are at `n'` in a segment above the watermark on disk, which no
flush has consumed, or in a segment that exactly one committed flush has consumed. Two committed
flushes have no segment in common. And every file of a committed flush is complete and, as long as
the ids fit into 64 bits, in `tmp/` or `series/` as it was committed; from the next start that gets
as far as a running engine on it is in `series/`. -/
theorem flush_cycle_crash_safe (crc : Bytes → UInt32) (lower : String → String) {n n' : Node}
    (hn : Node.Reaches crc lower failStop (.down {}) n)
    (hn' : Node.Reaches crc lower failStop n n') :
    let d := n'.site.disk
    (∀ id b fs, n.site.disk.bytesAt id = some b → SegmentFrames crc b fs →
      (d.watermark < id ∧ d.Stores crc id fs ∧ ∀ c ∈ d.commits, ∀ e ∈ c.consumed, e.1 ≠ id) ∨
        ∃! i : ℕ, ∃ c : Commit, d.commits[i]? = some c ∧ c.Takes crc id fs) ∧
    (d.commits.Pairwise fun c c' ↦ ∀ e ∈ c.consumed, ∀ e' ∈ c'.consumed, e.1 ≠ e'.1) ∧
    ∀ c ∈ d.commits, ∀ e ∈ c.files, e.2.complete = true ∧ (d.watermark ≤ u64Max →
      (d.tmp[e.1]? = some e.2 ∨ d.series[e.1]? = some e.2) ∧
      ∀ o config now n₂, n'.process = none → ¬ Fails o →
        (n'.after crc lower o (.start config now)).process.isSome = true →
        Node.Reaches crc lower failStop (n'.after crc lower o (.start config now)) n₂ →
        n₂.site.disk.series[e.1]? = some e.2) := by
  have hkept : n.Kept crc := hn.kept Node.kept_empty
  have hkept' : n'.Kept crc := hn'.kept hkept
  have hledger := hkept'.ledger
  have hw : n'.site.disk.watermark = n'.view.1 := hledger.watermark
  refine ⟨fun id b fs hb hframes ↦ ?_, ?_, fun c hc e he ↦ ?_⟩
  · have hstores : n.site.disk.Stores crc id fs :=
      ⟨b, hb, [], (List.append_nil fs).symm ▸ hframes⟩
    rcases hn'.traced hkept hstores with ⟨hid, hthere⟩ | htaken
    · refine .inl ⟨hw.trans_lt hid, hthere, fun c hc e he ↦ ?_⟩
      exact ((hledger.below c hc e he).trans_lt hid).ne
    · exact .inr (hledger.exists_unique_takes htaken)
  · exact hledger.ascending.imp fun hlt e he e' he' ↦ (hlt e he e' he').ne
  · obtain ⟨hcomplete, last, hlast, houtput, hfile⟩ := hledger.files c hc e he
    refine ⟨hcomplete, fun h64 ↦ ?_⟩
    have hlast64 : last ≤ u64Max := (hlast.trans_eq hw.symm).trans h64
    refine ⟨(hfile hlast64).imp_right And.right, fun o config now n₂ hnone ho hopen hlater ↦ ?_⟩
    have hshown := hkept'.shown_of_start hnone ho hopen houtput hlast64 hlast (hfile hlast64)
    have hstarted : Node.Reaches crc lower failStop n' (n'.after crc lower o (.start config now)) :=
      .single ⟨o, _, ho, rfl⟩
    exact (hlater.shown (hstarted.kept hkept') houtput hlast64 hshown).promoted.2

/-- One series without keys. -/
private def oneSeries : Config := { series := [⟨"t", []⟩] }

private def oneFrame : Bytes := frameOf crc32 "t" 0 ⟨946684800000000, "a", [], [], ""⟩

/-- One record, in a segment that has been sealed. -/
private def sealedNode : Node :=
  (((Node.down {}).after crc32 id noFault (.start oneSeries 0)).after crc32 id noFault
    (.wal (.append oneFrame))).after crc32 id noFault (.wal .sealSegment)

/-- Its flush has been stopped between the commit and the move to `series/`. -/
private def stoppedNode : Node := sealedNode.after crc32 id (crashing .seriesRename) (.flush 0)

/-- The engine has been started again. -/
private def restartedNode : Node := stoppedNode.after crc32 id noFault (.start oneSeries 0)

private theorem not_fails_crashing (label : Op) : ¬ Fails (crashing label) := by
  rintro ⟨t, l, n, h⟩
  rw [crashing] at h
  split_ifs at h

/-- A crash right after the commit: the frame's segment is consumed by one flush, whose file is
still in `tmp/`, and in `series/` after the next start. -/
theorem flush_cycle_crash_safe_stopped :
    (sealedNode.site.disk.bytesAt 1 = some (encodeSegmentHeader 1 ++ oneFrame)) ∧
      (stoppedNode.process = none ∧ stoppedNode.site.disk.watermark = 1 ∧
        stoppedNode.site.disk.commits.length = 1 ∧ stoppedNode.site.disk.series.keys = []) ∧
      (∀ fs, SegmentFrames crc32 (encodeSegmentHeader 1 ++ oneFrame) fs →
        ∃! i : ℕ, ∃ c : Commit, stoppedNode.site.disk.commits[i]? = some c ∧ c.Takes crc32 1 fs) ∧
      ∀ c ∈ stoppedNode.site.disk.commits, ∀ e ∈ c.files,
        stoppedNode.site.disk.tmp[e.1]? = some e.2 ∧
          restartedNode.site.disk.series[e.1]? = some e.2 := by
  have hsealed : Node.Reaches crc32 id failStop (.down {}) sealedNode :=
    ((Relation.ReflTransGen.single ⟨noFault, .start oneSeries 0, not_fails_noFault, rfl⟩).tail
      ⟨noFault, .wal (.append oneFrame), not_fails_noFault, rfl⟩).tail
      ⟨noFault, .wal .sealSegment, not_fails_noFault, rfl⟩
  have hstopped : Node.Reaches crc32 id failStop sealedNode stoppedNode :=
    .single ⟨crashing .seriesRename, .flush 0, not_fails_crashing _, rfl⟩
  have hbytes : sealedNode.site.disk.bytesAt 1 = some (encodeSegmentHeader 1 ++ oneFrame) := by
    decide +kernel
  have hstate : stoppedNode.process = none ∧ stoppedNode.site.disk.watermark = 1 ∧
      stoppedNode.site.disk.commits.length = 1 ∧ stoppedNode.site.disk.series.keys = [] := by
    decide +kernel
  have hopen : restartedNode.process.isSome = true := by decide +kernel
  obtain ⟨hframes, -, hfiles⟩ := flush_cycle_crash_safe crc32 id hsealed hstopped
  refine ⟨hbytes, hstate, fun fs hfs ↦ ?_, fun c hc e he ↦ ?_⟩
  · refine (hframes 1 _ fs hbytes hfs).resolve_left fun ⟨hlt, _⟩ ↦ ?_
    rw [hstate.2.1] at hlt
    exact lt_irrefl 1 hlt
  · have h64 : stoppedNode.site.disk.watermark ≤ u64Max := hstate.2.1.trans_le (by decide)
    obtain ⟨hthere, hlater⟩ := (hfiles c hc e he).2 h64
    refine ⟨hthere.resolve_right fun hseries ↦ ?_,
      hlater noFault oneSeries 0 restartedNode hstate.1 not_fails_noFault hopen .refl⟩
    have hkey := Std.ExtTreeMap.mem_keys.2 (mem_of_getElem? hseries)
    rw [hstate.2.2.2] at hkey
    cases hkey

end Orc
