import Orc.Wal.Recovery

/-!
# What recovery keeps of the tail

A torn tail loses what is behind its last whole frame and nothing else. What is left reads as whole
frames, by the flush as by a second recovery (`recovery_keeps_whole_frames`).

The scan cannot tell a torn end from a frame that was damaged in place. It stops at the damage, and
the whole frames behind it are cut off with it and kept nowhere (`damaged_tail_survives_iff`).

The first result is about a crash: the file ends in the first bytes of a frame, or in zeros where
the length reached the disk and the bytes did not (`TornEnd`). The second is about a disk that
changes bytes. It says exactly when nothing else is lost, which is hardly ever, and names the
exceptions: the changed frame may still be one, or the frames behind it may have copies elsewhere.
-/

namespace Orc

open Bytes Fault

variable {crc : Bytes → UInt32}

/-! ## Ends that are no frame -/

private theorem validatePrefix_of_frameExtent {buf : Bytes} {cap : ℕ} {e : DecodeError}
    (h : frameExtent buf cap = .error e) : validatePrefix crc buf cap = .error e := by
  rw [validatePrefix, framePayload, h]
  rfl

private theorem validatePrefix_of_prefix {f g : Bytes} {cap cap' : ℕ} (hf : IsFrame crc cap f)
    (hg : g <+: f) (hne : g ≠ f) : ∃ e, validatePrefix crc g cap' = .error e := by
  cases hp : validatePrefix crc g cap' with
  | error e => exact ⟨e, rfl⟩
  | ok p =>
    -- a frame in front of `g` would be in front of `f` as well, and so would be `f`
    obtain ⟨h, rest, rfl, -, hh, -⟩ := exists_frame_of_validatePrefix hp
    obtain ⟨more, rfl⟩ := hg
    have heq : h ++ (rest ++ more) = h ++ rest ++ more ++ [] := by
      rw [List.append_nil, List.append_assoc]
    have hend := ((hh.mono (Nat.le_max_right cap cap')).eq_of_append_eq
      (hf.mono (Nat.le_max_left cap cap')) heq).2
    obtain ⟨rfl, rfl⟩ := List.append_eq_nil_iff.1 hend
    exact absurd (List.append_nil _).symm hne

private theorem validatePrefix_replicate (n cap : ℕ) :
    ∃ e, validatePrefix crc (List.replicate n 0) cap = .error e := by
  -- zero bytes are no frame: their length field is below the smallest payload
  have hlen : leNat ((List.replicate n (0 : UInt8)).take 4) = 0 := by
    rw [List.take_replicate]
    generalize min 4 n = k
    induction k with
    | zero => rfl
    | succ k ih => rw [List.replicate_succ, leNat, ih]; rfl
  obtain ⟨e, he⟩ : ∃ e, frameExtent (List.replicate n (0 : UInt8)) cap = .error e := by
    simp only [frameExtent, hlen]
    by_cases hshort : (List.replicate n (0 : UInt8)).length < frameHeaderBytes
    · rw [if_pos hshort]
      exact ⟨_, rfl⟩
    · rw [if_neg hshort, if_pos (by decide)]
      exact ⟨_, rfl⟩
  exact ⟨e, validatePrefix_of_frameExtent he⟩

/-- An end that a torn write leaves: the first bytes of a frame, or zeros. -/
def TornEnd (crc : Bytes → UInt32) (g : Bytes) : Prop :=
  (∃ f, IsFrame crc u32Max f ∧ g <+: f ∧ g ≠ f) ∨ ∃ n, g = List.replicate n 0

theorem TornEnd.cut {g : Bytes} (h : TornEnd crc g) (cap : ℕ) : Cut crc cap g [] g := by
  by_cases hne : g = []
  · rw [hne]
    exact .done
  · obtain ⟨e, he⟩ : ∃ e, validatePrefix crc g cap = .error e := by
      rcases h with ⟨f, hf, hprefix, hproper⟩ | ⟨n, rfl⟩
      · exact validatePrefix_of_prefix hf hprefix hproper
      · exact validatePrefix_replicate n cap
    exact .stop hne he

/-! ## What is left of the tail -/

theorem SegFile.bytes_amend (n : ℕ) (f : SegFile) : (f.amend n).bytes = f.bytes.take n := by
  by_cases hlt : n < f.bytes.length
  · rw [amend, if_pos hlt]
    rfl
  · rw [amend, if_neg hlt, List.take_of_length_le (not_lt.1 hlt)]

theorem SegFile.amend_amend (n : ℕ) (f : SegFile) : (f.amend n).amend n = f.amend n := by
  rw [amend, if_neg]
  rw [bytes_amend, List.length_take]
  omega

namespace Disk

theorem getElem?_amended {d : Disk} {id n : ℕ} {f : SegFile} (h : d.wal[id]? = some f) :
    (d.amended id n).wal[id]? = some (f.amend n) := by
  rw [amended, onSegment, getElem?_updateFile, if_pos rfl, h]
  rfl

theorem IsTail.unique {d : Disk} {watermark tail tail' : ℕ} (h : d.IsTail watermark tail)
    (h' : d.IsTail watermark tail') : tail = tail' :=
  le_antisymm (h'.highest tail h.mem) (h.highest tail' h'.mem)

theorem IsTail.amended {d : Disk} {watermark tail : ℕ} (h : d.IsTail watermark tail) (n : ℕ) :
    ((d.without (d.flushed watermark)).amended tail n).IsTail watermark tail ∧
      ((d.without (d.flushed watermark)).amended tail n).flushed watermark = [] := by
  have hmem : ∀ id, id ∈ ((d.without (d.flushed watermark)).amended tail n).wal ↔
      id ∈ d.wal ∧ watermark < id := by
    intro id
    rw [Disk.amended, onSegment, mem_updateFile, mem_without_flushed]
  refine ⟨⟨(hmem tail).2 ⟨h.mem, h.above⟩, h.above, fun id hid ↦ h.highest id ((hmem id).1 hid).1⟩,
    List.eq_nil_iff_forall_not_mem.2 fun id hid ↦ ?_⟩
  obtain ⟨hwal, hle⟩ := mem_flushed.1 hid
  have := ((hmem id).1 hwal).2
  omega

end Disk

theorem recover_scanned {d : Disk} {watermark tail hid : ℕ} {f : SegFile} {fs : List Bytes}
    {rest : Bytes} (htail : d.IsTail watermark tail) (hf : d.wal[tail]? = some f)
    (hheader : parseSegmentHeader f.bytes = .ok hid)
    (hcut : Cut crc f.bytes.length (f.bytes.drop segmentHeaderBytes) fs rest) :
    Triple noFault (· = d) (recover crc watermark)
      (fun r d' ↦ r.tail = some tail ∧ r.tailFrames = fs.length ∧
        d' = (d.without (d.flushed watermark)).amended tail
          (segmentHeaderBytes + fs.flatten.length))
      (fun _ _ ↦ False) (fun _ ↦ False) := by
  refine (recover_noFault crc watermark d).conseq (fun _ ↦ id) ?_ ?_ (fun _ ↦ id)
  · intro r d' hrecovers
    cases hrecovers with
    | empty hnone => exact absurd htail (hnone tail)
    | scanned htail' hf' hheader' hcut' =>
      obtain rfl := htail.unique htail'
      obtain rfl := Option.some.inj (hf.symm.trans hf')
      obtain ⟨rfl, -⟩ := hcut.unique hcut'
      exact ⟨rfl, rfl, rfl⟩
    | absent htail' hf' hheader' =>
      obtain rfl := htail.unique htail'
      obtain rfl := Option.some.inj (hf.symm.trans hf')
      cases hheader.symm.trans hheader'
    | corrupt htail' hf' hheader' =>
      obtain rfl := htail.unique htail'
      obtain rfl := Option.some.inj (hf.symm.trans hf')
      cases hheader.symm.trans hheader'
  · rintro e d' ⟨tail', f', htail', hf', hheader', -⟩
    obtain rfl := htail.unique htail'
    obtain rfl := Option.some.inj (hf.symm.trans hf')
    cases hheader.symm.trans hheader'

theorem parseSegmentHeader_amend {f : SegFile} {hid : ℕ}
    (hheader : parseSegmentHeader f.bytes = .ok hid)
    (n : ℕ) : parseSegmentHeader (f.amend (segmentHeaderBytes + n)).bytes = .ok hid := by
  rw [SegFile.bytes_amend, parseSegmentHeader_take _ (Nat.le_add_right _ _), hheader]

/-- What is left behind the header is the frames of the walk. -/
theorem readsWhole_amend {f : SegFile} {hid : ℕ} {fs : List Bytes} {rest : Bytes}
    (hheader : parseSegmentHeader f.bytes = .ok hid)
    (hcut : Cut crc f.bytes.length (f.bytes.drop segmentHeaderBytes) fs rest) :
    ReadsWhole crc (f.amend (segmentHeaderBytes + fs.flatten.length)).bytes fs := by
  have hlen := segmentHeaderBytes_le_length hheader
  have hsum := congrArg List.length hcut.eq_append
  rw [List.length_drop, List.length_append] at hsum
  refine readsWhole_of_frames (parseSegmentHeader_amend hheader _) ?_ ?_ hcut.isFrame
  · rw [SegFile.bytes_amend, List.length_take]
    omega
  · rw [SegFile.bytes_amend, List.drop_take, hcut.eq_append, Nat.add_sub_cancel_left,
      List.take_left]

theorem parseSegmentHeader_frames (n : ℕ) (fs : List Bytes) (g : Bytes) :
    parseSegmentHeader (encodeSegmentHeader n ++ fs.flatten ++ g) = .ok (n % 2 ^ 64) := by
  rw [List.append_assoc, parseSegmentHeader_append]

theorem cut_frames_append (n : ℕ) {fs gs : List Bytes} {g rest : Bytes}
    (hfs : ∀ f ∈ fs, IsFrame crc u32Max f)
    (hg : Cut crc (encodeSegmentHeader n ++ fs.flatten ++ g).length g gs rest) :
    Cut crc (encodeSegmentHeader n ++ fs.flatten ++ g).length
      ((encodeSegmentHeader n ++ fs.flatten ++ g).drop segmentHeaderBytes) (fs ++ gs) rest := by
  rw [List.append_assoc, List.drop_left' (length_encodeSegmentHeader n), ← List.append_assoc]
  refine .append (fun f hf ↦ (hfs f hf).of_length_le ?_) hg
  have hle : f.length ≤ fs.flatten.length := (List.sublist_flatten_of_mem hf).length_le
  simp only [List.length_append]
  omega

/-- **Recovery keeps every whole frame.** The scan of a segment of frames with anything behind them
keeps the frames, and keeps nothing else if what is behind them is a torn end. A tail whose header
parses, whatever is behind it, is left as a segment of whole frames: the reader of the flush finds
as many as recovery reports, where the scan found them, up to the end of the file; and a second
recovery changes nothing. -/
theorem recovery_keeps_whole_frames (crc : Bytes → UInt32) (w : World Disk) (id : ℕ) :
    (∀ (n synced : ℕ) (fs : List Bytes) (g : Bytes), (∀ f ∈ fs, IsFrame crc u32Max f) →
      w.disk.wal[id]? = some ⟨encodeSegmentHeader n ++ fs.flatten ++ g, synced⟩ →
      ∃ frames discarded w' kept,
        scanTail crc id noFault w = (.ok (.scanned frames discarded), w') ∧
        w'.disk.wal[id]? = some kept ∧
        encodeSegmentHeader n ++ fs.flatten <+: kept.bytes ∧
        kept.bytes <+: encodeSegmentHeader n ++ fs.flatten ++ g ∧
        (TornEnd crc g → kept.bytes = encodeSegmentHeader n ++ fs.flatten ∧ frames = fs.length)) ∧
    ∀ (watermark hid : ℕ) (b : SegFile), w.disk.IsTail watermark id → w.disk.wal[id]? = some b →
      parseSegmentHeader b.bytes = .ok hid →
      ∃ r w' kept fs, recover crc watermark noFault w = (.ok r, w') ∧ r.tail = some id ∧
        w'.disk.wal[id]? = some kept ∧ kept.bytes <+: b.bytes ∧
        ReadsWhole crc kept.bytes fs ∧ fs.length = r.tailFrames ∧
        (∀ keyCount reader, SegmentReader.new kept.bytes kept.bytes.length = .ok reader →
          (reader.frames crc keyCount (kept.bytes.length + 1)).map offsetOf =
            scanOffsets crc b.bytes b.bytes.length segmentHeaderBytes) ∧
        ∃ r' w'', recover crc watermark noFault w' = (.ok r', w'') ∧ w''.disk = w'.disk := by
  constructor
  · intro n synced fs g hfs hfile
    obtain ⟨gs, rest, hg⟩ := exists_cut crc (encodeSegmentHeader n ++ fs.flatten ++ g).length g
    have hcut := cut_frames_append n hfs hg
    obtain ⟨a, w', hrun, rfl, hdisk⟩ := (scanTail_scanned hfile (parseSegmentHeader_frames n fs g)
      hcut (E := fun _ _ ↦ False) (C := fun _ ↦ False)).returns (fun _ _ ↦ not_false)
        not_crashes_noFault rfl
    refine ⟨_, _, w', _, hrun, hdisk ▸ Disk.getElem?_amended hfile, ?_, ?_, fun htorn ↦ ?_⟩
    · rw [SegFile.bytes_amend, List.prefix_take_iff]
      refine ⟨List.prefix_append _ _, ?_⟩
      rw [List.length_append, length_encodeSegmentHeader, List.flatten_append, List.length_append]
      omega
    · rw [SegFile.bytes_amend]
      exact List.take_prefix _ _
    · obtain ⟨rfl, -⟩ := hg.unique (htorn.cut _)
      rw [SegFile.bytes_amend, List.append_nil]
      refine ⟨List.take_left' ?_, rfl⟩
      rw [List.length_append, length_encodeSegmentHeader]
  · intro watermark hid b htail hfile hheader
    obtain ⟨fs, rest, hcut⟩ := exists_cut crc b.bytes.length (b.bytes.drop segmentHeaderBytes)
    obtain ⟨r, w', hrun, hr, hframes, hdisk⟩ :=
      (recover_scanned htail hfile hheader hcut).returns (fun _ _ ↦ not_false)
        not_crashes_noFault rfl
    have hleft : (w.disk.without (w.disk.flushed watermark)).wal[id]? = some b :=
      (Disk.getElem?_without_flushed htail.above).trans hfile
    have hkept : w'.disk.wal[id]? = some (b.amend (segmentHeaderBytes + fs.flatten.length)) :=
      hdisk ▸ Disk.getElem?_amended hleft
    have hwhole := readsWhole_amend hheader hcut
    refine ⟨r, w', _, fs, hrun, hr, hkept, ?_, hwhole, hframes.symm,
      fun keyCount reader hreader ↦ ?_, ?_⟩
    · rw [SegFile.bytes_amend]
      exact List.take_prefix _ _
    · obtain ⟨reader', hreader', hitems, -⟩ := hwhole.reads keyCount
      obtain rfl := Except.ok.inj (hreader.symm.trans hreader')
      have hscan : scanFrames crc b.bytes b.bytes.length segmentHeaderBytes 0 = _ ∧ _ :=
        scan_eq rfl hcut (List.length_drop.trans_le (Nat.sub_le _ _))
      rw [hitems, map_offsetOf_judgeAll, hscan.2]
    · -- the second recovery walks over the same frames, and there is nothing behind them
      obtain ⟨htail', hflushed⟩ := htail.amended (segmentHeaderBytes + fs.flatten.length)
      rw [← hdisk] at htail' hflushed
      have hcut' := cut_segment hwhole.length hwhole.drop hcut.isFrame
      obtain ⟨r', w'', hrun', -, -, hdisk'⟩ :=
        (recover_scanned htail' hkept (parseSegmentHeader_amend hheader _) hcut').returns
          (fun _ _ ↦ not_false) not_crashes_noFault rfl
      refine ⟨r', w'', hrun', ?_⟩
      rw [hdisk', hflushed]
      refine Disk.onSegment_self fun f hf ↦ ?_
      obtain rfl := Option.some.inj (hkept.symm.trans hf)
      exact SegFile.amend_amend _ _

/-- Two rows of a series without keys. -/
private def firstFrame : Bytes := frameOf crc32 "s" 0 ⟨1, "a", [], [], ""⟩

private def secondFrame : Bytes := frameOf crc32 "s" 0 ⟨2, "b", [], [], ""⟩

/-- A segment of one row, torn in the middle of a second one. -/
private def tornDisk : Disk :=
  { wal := (∅ : Std.ExtTreeMap ℕ SegFile).insert 5
      ⟨encodeSegmentHeader 5 ++ [firstFrame].flatten ++ secondFrame.take 9, 0⟩ }

private theorem isFrame_firstRow : IsFrame crc32 u32Max firstFrame :=
  ⟨⟨⟨1, 0, "s", "a"⟩, firstFrame.length⟩, by decide +kernel, rfl⟩

private theorem isFrame_secondRow : IsFrame crc32 u32Max secondFrame :=
  ⟨⟨⟨2, 0, "s", "b"⟩, secondFrame.length⟩, by decide +kernel, rfl⟩

private theorem tornDisk_isTail : tornDisk.IsTail 4 5 := by
  refine ⟨by decide +kernel, by decide, fun id hid ↦ ?_⟩
  rw [← Std.ExtTreeMap.mem_keys] at hid
  have hkeys : tornDisk.wal.keys = [5] := by decide +kernel
  rw [hkeys, List.mem_singleton] at hid
  exact hid.le

theorem recovery_keeps_whole_frames_torn :
    (∃ frames discarded w' kept,
      scanTail crc32 5 noFault ⟨tornDisk, 0⟩ = (.ok (.scanned frames discarded), w') ∧
      w'.disk.wal[5]? = some kept ∧ kept.bytes = encodeSegmentHeader 5 ++ firstFrame ∧ frames = 1) ∧
    ∃ r w' kept fs, recover crc32 4 noFault ⟨tornDisk, 0⟩ = (.ok r, w') ∧
      w'.disk.wal[5]? = some kept ∧ ReadsWhole crc32 kept.bytes fs ∧ fs.length = r.tailFrames := by
  have hfile : tornDisk.wal[5]? = some
      ⟨encodeSegmentHeader 5 ++ [firstFrame].flatten ++ secondFrame.take 9, 0⟩ :=
    Std.ExtTreeMap.getElem?_insert_self
  have htorn : TornEnd crc32 (secondFrame.take 9) :=
    .inl ⟨secondFrame, isFrame_secondRow, List.take_prefix _ _, by decide +kernel⟩
  obtain ⟨hscan, hrecover⟩ := recovery_keeps_whole_frames crc32 ⟨tornDisk, 0⟩ 5
  constructor
  · obtain ⟨frames, discarded, w', kept, hrun, hkept, -, -, hexact⟩ := hscan 5 0 [firstFrame] _
      (List.forall_mem_singleton.2 isFrame_firstRow) hfile
    obtain ⟨hbytes, hcount⟩ := hexact htorn
    exact ⟨frames, discarded, w', kept, hrun, hkept, hbytes.trans (by simp), hcount⟩
  · obtain ⟨r, w', kept, fs, hrun, -, hkept, -, hwhole, hlen, -⟩ := hrecover 4 5 _ tornDisk_isTail
      hfile (parseSegmentHeader_frames 5 _ _)
    exact ⟨r, w', kept, fs, hrun, hkept, hwhole, hlen⟩

/-! ## Damage in the middle -/

namespace Disk

/-- The files that keep what was logged: segments, quarantined segments and rejects. -/
def logged (d : Disk) : List Bytes :=
  d.wal.toList.map (fun p ↦ p.2.bytes) ++ d.corrupt.toList.map Prod.snd ++
    d.rejects.toList.map Prod.snd

/-- Some file keeps the bytes `g` as they are. -/
def Holds (d : Disk) (g : Bytes) : Prop := ∃ b ∈ d.logged, g <:+: b

instance (d : Disk) (g : Bytes) : Decidable (d.Holds g) :=
  inferInstanceAs (Decidable (∃ b ∈ d.logged, g <:+: b))

theorem holds_iff {d : Disk} {g : Bytes} :
    d.Holds g ↔ (∃ id : ℕ, ∃ f : SegFile, d.wal[id]? = some f ∧ g <:+: f.bytes) ∨
      (∃ id : ℕ, ∃ b, d.corrupt[id]? = some b ∧ g <:+: b) ∨
        ∃ id : ℕ, ∃ b, d.rejects[id]? = some b ∧ g <:+: b := by
  simp only [Holds, logged, List.mem_append, List.mem_map, Prod.exists,
    Std.ExtTreeMap.mem_toList_iff_getElem?_eq_some]
  constructor
  · rintro ⟨b, (⟨id, f, hf, rfl⟩ | ⟨id, c, hc, rfl⟩) | ⟨id, c, hc, rfl⟩, hg⟩
    · exact .inl ⟨id, f, hf, hg⟩
    · exact .inr (.inl ⟨id, c, hc, hg⟩)
    · exact .inr (.inr ⟨id, c, hc, hg⟩)
  · rintro (⟨id, f, hf, hg⟩ | ⟨id, c, hc, hg⟩ | ⟨id, c, hc, hg⟩)
    · exact ⟨f.bytes, .inl (.inl ⟨id, f, hf, rfl⟩), hg⟩
    · exact ⟨c, .inl (.inr ⟨id, c, hc, rfl⟩), hg⟩
    · exact ⟨c, .inr ⟨id, c, hc, rfl⟩, hg⟩

private theorem holds_amended {d : Disk} {id n : ℕ} {ids : List ℕ} {f : SegFile} {g : Bytes}
    (hf : (d.without ids).wal[id]? = some f) :
    ((d.without ids).amended id n).Holds g ↔
      g <:+: f.bytes.take n ∨ (d.without (ids ++ [id])).Holds g := by
  -- what is kept after recovery: what is left of the tail, and the other files
  have hwal : (∃ k : ℕ, ∃ b : SegFile, ((d.without ids).amended id n).wal[k]? = some b ∧
      g <:+: b.bytes) ↔
      g <:+: f.bytes.take n ∨
        ∃ k : ℕ, ∃ b : SegFile, (d.without (ids ++ [id])).wal[k]? = some b ∧ g <:+: b.bytes := by
    constructor
    · rintro ⟨k, b, hb, hg⟩
      by_cases hk : k = id
      · subst hk
        rw [getElem?_amended hf, Option.some.injEq] at hb
        rw [← hb, SegFile.bytes_amend] at hg
        exact .inl hg
      · refine .inr ⟨k, b, ?_, hg⟩
        rw [amended, onSegment, getElem?_updateFile, if_neg (Ne.symm hk), getElem?_without] at hb
        rw [getElem?_without, ← hb]
        simp only [List.mem_append, List.mem_singleton, hk, or_false]
    · rintro (hg | ⟨k, b, hb, hg⟩)
      · exact ⟨id, _, getElem?_amended hf, by rwa [SegFile.bytes_amend]⟩
      · refine ⟨k, b, ?_, hg⟩
        rw [getElem?_without] at hb
        by_cases hk : k = id
        · rw [if_pos (by simp [hk])] at hb
          cases hb
        · rw [amended, onSegment, getElem?_updateFile, if_neg (Ne.symm hk), getElem?_without, ← hb]
          simp only [List.mem_append, List.mem_singleton, hk, or_false]
  rw [holds_iff, holds_iff, hwal, or_assoc]
  rfl

end Disk

theorem IsFrame.length_eq {cap : ℕ} {f : Bytes} (h : IsFrame crc cap f) :
    f.length = frameHeaderBytes + leNat (f.take 4) := by
  obtain ⟨payload, rfl, hadm⟩ := h.exists_payload
  have hu32 := hadm.u32
  rw [length_frameBytes, frameBytes, List.take_left' (length_leBytes 4 _),
    leNat_leBytes, Nat.mod_eq_of_lt (by unfold u32Max at hu32; omega)]

private theorem cut_damaged {f f' : Bytes} (cap : ℕ) (rest : Bytes) (hf : IsFrame crc u32Max f)
    (hlen : f'.length = f.length) (hfield : f'.take 4 = f.take 4)
    (hdamaged : ¬ IsFrame crc u32Max f') : Cut crc cap (f' ++ rest) [] (f' ++ rest) := by
  have hpos := hf.length_pos
  unfold frameHeaderBytes at hpos
  cases hp : validatePrefix crc (f' ++ rest) cap with
  | error e =>
    refine .stop (fun hnil ↦ ?_) hp
    rw [(List.append_eq_nil_iff.1 hnil).1] at hlen
    rw [← hlen, List.length_nil] at hpos
    omega
  | ok p =>
    -- a frame in front would have the length field of `f`, and so end where `f'` ends
    obtain ⟨h, more, heq, -, hh, -⟩ := exists_frame_of_validatePrefix hp
    have hhpos := hh.length_pos
    unfold frameHeaderBytes at hhpos
    have htake : h.take 4 = f.take 4 := by
      rw [← hfield, ← List.take_append_of_le_length (by omega : 4 ≤ h.length), ← heq,
        List.take_append_of_le_length (by omega)]
    obtain ⟨rfl, -⟩ := List.append_inj heq (by rw [hlen, hf.length_eq, hh.length_eq, htake])
    obtain ⟨payload, rfl, hadm⟩ := hh.exists_payload
    refine absurd (hh.of_length_le ?_) hdamaged
    rw [length_frameBytes]
    exact Nat.add_le_add_left hadm.u32 _

/-- The directory recovery is given: its tail is a header and frames, one of which has been changed
behind its length field. -/
structure Damaged (crc : Bytes → UInt32) (d : Disk) (watermark tail : ℕ) (header : ℕ)
    (before : List Bytes) (f f' : Bytes) (behind : List Bytes) : Prop where
  isTail : d.IsTail watermark tail
  frames : ∀ g ∈ before ++ f :: behind, IsFrame crc u32Max g
  length : f'.length = f.length
  field : f'.take 4 = f.take 4
  file : ∃ synced,
    d.wal[tail]? = some ⟨encodeSegmentHeader header ++ (before ++ f' :: behind).flatten, synced⟩

/-- **Damage in the middle.** After recovery every other frame of the tail is still somewhere, as it
was, exactly if the changed frame still is one, or each frame behind it has a copy in front of it,
in another segment above the watermark, or among the quarantined and rejected bytes. -/
theorem damaged_tail_survives_iff (crc : Bytes → UInt32) (w : World Disk)
    {watermark tail header : ℕ} {before behind : List Bytes} {f f' : Bytes}
    (h : Damaged crc w.disk watermark tail header before f f' behind) :
    ∃ r w', recover crc watermark noFault w = (.ok r, w') ∧
      ((∀ g ∈ before ++ behind, w'.disk.Holds g) ↔
        IsFrame crc u32Max f' ∨
          ∀ g ∈ behind, g <:+: encodeSegmentHeader header ++ before.flatten ∨
            (w.disk.without (w.disk.flushed watermark ++ [tail])).Holds g) := by
  obtain ⟨synced, hfile⟩ := h.file
  have hbefore : ∀ g ∈ before, IsFrame crc u32Max g :=
    fun g hg ↦ h.frames g (List.mem_append_left _ hg)
  have hleft := (Disk.getElem?_without_flushed h.isTail.above).trans hfile
  have hheader := parseSegmentHeader_append header (before ++ f' :: behind).flatten
  have hin : ∀ g ∈ before, g <:+: encodeSegmentHeader header ++ before.flatten :=
    fun g hg ↦ (List.infix_of_mem_flatten hg).trans (List.suffix_append _ _).isInfix
  by_cases hf' : IsFrame crc u32Max f'
  · -- nothing is damaged, and every frame is kept
    have hall : ∀ g ∈ before ++ f' :: behind, IsFrame crc u32Max g := by
      intro g hg
      rw [List.mem_append, List.mem_cons] at hg
      rcases hg with hg | rfl | hg
      · exact hbefore g hg
      · exact hf'
      · exact h.frames g (List.mem_append_right _ (List.mem_cons_of_mem _ hg))
    have hcut := cut_segment (b := encodeSegmentHeader header ++ (before ++ f' :: behind).flatten)
      (by rw [List.length_append, length_encodeSegmentHeader])
      (List.drop_left' (length_encodeSegmentHeader header)) hall
    obtain ⟨r, w', hrun, -, -, hdisk⟩ := (recover_scanned h.isTail hfile hheader hcut).returns
      (fun _ _ ↦ not_false) not_crashes_noFault rfl
    refine ⟨r, w', hrun, iff_of_true (fun g hg ↦ ?_) (.inl hf')⟩
    have hmem : g ∈ before ++ f' :: behind := by
      rw [List.mem_append] at hg ⊢
      exact hg.imp id (List.mem_cons_of_mem _)
    rw [hdisk, Disk.holds_amended hleft, List.take_of_length_le (by simp)]
    exact .inl ((List.infix_of_mem_flatten hmem).trans (List.suffix_append _ _).isInfix)
  · have hcut : Cut crc (encodeSegmentHeader header ++ (before ++ f' :: behind).flatten).length
        ((encodeSegmentHeader header ++ (before ++ f' :: behind).flatten).drop segmentHeaderBytes)
        before (f' ++ behind.flatten) := by
      have hstop := cut_damaged (encodeSegmentHeader header ++ before.flatten ++
        (f' ++ behind.flatten)).length behind.flatten (h.frames f (by simp)) h.length h.field hf'
      have hwalk := cut_frames_append header hbefore hstop
      rw [List.append_nil] at hwalk
      rwa [List.flatten_append, List.flatten_cons, ← List.append_assoc]
    obtain ⟨r, w', hrun, -, -, hdisk⟩ := (recover_scanned h.isTail hfile hheader hcut).returns
      (fun _ _ ↦ not_false) not_crashes_noFault rfl
    refine ⟨r, w', hrun, ?_⟩
    have hholds : ∀ g, w'.disk.Holds g ↔ g <:+: encodeSegmentHeader header ++ before.flatten ∨
        (w.disk.without (w.disk.flushed watermark ++ [tail])).Holds g := by
      intro g
      rw [hdisk, Disk.holds_amended hleft, List.flatten_append, ← List.append_assoc,
        List.take_left' (by rw [List.length_append, length_encodeSegmentHeader])]
    simp only [hholds, hf', false_or]
    constructor
    · exact fun hkept g hg ↦ hkept g (List.mem_append_right _ hg)
    · intro hkept g hg
      rcases List.mem_append.1 hg with hg | hg
      · exact .inl (hin g hg)
      · exact hkept g hg

/-- The first of two rows with its last byte changed. -/
private def flippedFrame : Bytes := firstFrame.dropLast ++ [firstFrame.getLastD 0 ^^^ 0x40]

private def flippedDisk : Disk :=
  { wal := (∅ : Std.ExtTreeMap ℕ SegFile).insert 5
      ⟨encodeSegmentHeader 5 ++ ([] ++ flippedFrame :: [secondFrame]).flatten, 0⟩ }

private theorem flippedDisk_damaged :
    Damaged crc32 flippedDisk 4 5 5 [] firstFrame flippedFrame [secondFrame] := by
  refine ⟨⟨by decide +kernel, by decide, fun id hid ↦ ?_⟩, ?_, by decide +kernel, by decide +kernel,
    0, Std.ExtTreeMap.getElem?_insert_self⟩
  · rw [← Std.ExtTreeMap.mem_keys] at hid
    have hkeys : flippedDisk.wal.keys = [5] := by decide +kernel
    rw [hkeys, List.mem_singleton] at hid
    exact hid.le
  · intro g hg
    rw [List.nil_append, List.mem_cons, List.mem_singleton] at hg
    rcases hg with rfl | rfl
    · exact isFrame_firstRow
    · exact isFrame_secondRow

/-- The row behind the damage is lost, and by the condition it has no copy. -/
theorem damaged_tail_survives_iff_flipped :
    ∃ r w', recover crc32 4 noFault ⟨flippedDisk, 0⟩ = (.ok r, w') ∧
      ((∀ g ∈ [] ++ [secondFrame], w'.disk.Holds g) ↔
        IsFrame crc32 u32Max flippedFrame ∨
          ∀ g ∈ [secondFrame], g <:+: encodeSegmentHeader 5 ++ ([] : List Bytes).flatten ∨
            (flippedDisk.without (flippedDisk.flushed 4 ++ [5])).Holds g) :=
  damaged_tail_survives_iff crc32 ⟨flippedDisk, 0⟩ flippedDisk_damaged

/-- Recovery of the two rows succeeds, and the second, whole row is in no file any more. -/
theorem damaged_tail_loses_row :
    Damaged crc32 flippedDisk 4 5 5 [] firstFrame flippedFrame [secondFrame] ∧
      ∃ r w', recover crc32 4 noFault ⟨flippedDisk, 0⟩ = (.ok r, w') ∧
        ¬ w'.disk.Holds secondFrame := by
  refine ⟨flippedDisk_damaged, ?_⟩
  have hlost : ∃ r, (recover crc32 4 noFault ⟨flippedDisk, 0⟩).1 = .ok r ∧
      ¬ (recover crc32 4 noFault ⟨flippedDisk, 0⟩).2.disk.Holds secondFrame :=
    ⟨{ pending := [5], tail := some 5, discardedBytes := 2 * firstFrame.length, nextSegment := 6 },
      by decide +kernel⟩
  generalize recover crc32 4 noFault ⟨flippedDisk, 0⟩ = x at hlost
  obtain ⟨r, hr, hlost⟩ := hlost
  exact ⟨r, x.2, Prod.ext hr rfl, hlost⟩

end Orc
